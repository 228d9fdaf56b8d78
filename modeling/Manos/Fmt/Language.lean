import Manos.Fmt.Unlimited

/-!
# The language of formats

What a format is documented to print: a concatenation in which each argument stands on its own.
The formatter prints that exactly if no number has to be padded with blanks and no negative one is
to be printed with its sign.
-/

namespace Fmt

open Exec

/-! ### Formats -/

/-- The types of the conversions of numbers -/
inductive NumberType where
  | d
  | u
  | x

/-- A part of a format with its argument; a width and a precision are given by their digits. -/
inductive Part where
  | literal (b : Byte)
  | percent
  | number (zero : Bool) (width : List Byte) (type : NumberType) (i : BitVec 32)
  | string (width : List Byte) (precision : Option (List Byte)) (mem : List Byte)

/-- The number that digits stand for -/
def decimal (ds : List Byte) : ℕ := ds.foldl (fun v c => 10 * v + (c.toNat - 0x30)) 0

/-- The character of a type -/
def NumberType.char : NumberType → Byte
  | .d => 0x64
  | .u => 0x75
  | .x => 0x78

/-- Whether numbers of a type are printed in hexadecimal. -/
def NumberType.hex : NumberType → Bool
  | .x => true
  | _ => false

/-- The flag of a hole in the format -/
def flagText (zero : Bool) : List Byte := if zero = true then [0x30] else []

/-- The precision of a hole in the format -/
def precisionText : Option (List Byte) → List Byte
  | none => []
  | some ds => 0x2e :: ds

/-- A part in the format -/
def Part.format : Part → List Byte
  | .literal b => [b]
  | .percent => [Fmt.percent, Fmt.percent]
  | .number zero width type _ => Fmt.percent :: (flagText zero ++ width ++ [type.char])
  | .string width precision _ => Fmt.percent :: (width ++ precisionText precision ++ [0x73])

/-- The arguments of a part -/
def Part.args : Part → List Arg
  | .literal _ => []
  | .percent => []
  | .number _ _ _ i => [.number i]
  | .string _ _ mem => [.string mem]

/-- A part of the documented language: widths are at most 20, and precisions fit into an `int`.  A
width does not start with the flag. -/
def Part.Valid : Part → Prop
  | .literal b => b ≠ 0 ∧ b ≠ Fmt.percent
  | .percent => True
  | .number zero width _ _ => (∀ b ∈ width, isDigit b = true) ∧ decimal width ≤ 20
      ∧ (zero = false → width.head? ≠ some 0x30)
  | .string width precision _ => (∀ b ∈ width, isDigit b = true) ∧ decimal width ≤ 20
      ∧ width.head? ≠ some 0x30
      ∧ ∀ ds ∈ precision, (∀ b ∈ ds, isDigit b = true) ∧ decimal ds < 2 ^ 31

/-- A number as its type prints it -/
def NumberType.text (i : BitVec 32) : NumberType → List Byte
  | .d => if i.toInt < 0 then 0x2d :: numeral 10 i.toInt.natAbs else numeral 10 i.toInt.natAbs
  | .u => numeral 10 i.toNat
  | .x => numeral 16 i.toNat

/-- What a part prints -/
def Part.text : Part → List Byte
  | .literal b => [b]
  | .percent => [Fmt.percent]
  | .number zero width type i =>
      (type.text i).leftpad (decimal width) (if zero = true then 0x30 else 0x20)
  | .string width none mem => (cstr mem).leftpad (decimal width) 0x20
  | .string width (some ds) mem => ((cstr mem).take (decimal ds)).leftpad (decimal width) 0x20

/-- A number is printed with its sign, and not padded with blanks. -/
def Part.Plain : Part → Prop
  | .number zero width type i =>
      (zero = true ∨ decimal width ≤ (numeral (base type.hex) i.toNat).length)
        ∧ (type = .d → 0 ≤ i.toInt)
  | _ => True

/-- The piece that a part is -/
def Part.piece : Part → Piece
  | .literal b => .char b
  | .percent => .char Fmt.percent
  | .number zero width type i => .number zero (decimal width) type.hex i
  | .string width none mem => .string false (decimal width) (cstr mem)
  | .string width (some ds) mem => .string false (decimal width) ((cstr mem).take (decimal ds))

/-! ### Reading a format -/

section

variable {ds rest : List Byte} {c : Byte} {zero : Bool}

/-- The characters that may follow a width or a precision -/
def Ends (rest : List Byte) : Prop :=
  ∃ c r, rest = c :: r ∧ c ∈ [0x2e, 0x64, 0x75, 0x78, 0x73]

theorem digitsValue_append (v : ℕ) (hds : ∀ b ∈ ds, isDigit b = true) (hrest : Ends rest) :
  digitsValue v (ds ++ rest) = ds.foldl (fun v c => 10 * v + (c.toNat - 0x30)) v
  := by
  induction ds generalizing v with
  | nil =>
      obtain ⟨c, r, rfl, hc⟩ := hrest
      have hdigit : ∀ c ∈ [(0x2e : Byte), 0x64, 0x75, 0x78, 0x73], ¬ isDigit c = true := by decide
      rw [List.nil_append, digitsValue, if_neg (hdigit c hc)]
      rfl
  | cons b ds ih =>
      rw [List.cons_append, digitsValue, if_pos (hds b List.mem_cons_self),
        ih _ fun b hb => hds b (List.mem_cons_of_mem _ hb)]
      rfl

/-- A digit is neither a blank nor a sign, and not `'%'`. -/
theorem not_blank_of_isDigit (hc : isDigit c = true) :
  ¬ isSpace c = true ∧ c ≠ 0x2d ∧ c ≠ 0x2b ∧ c ≠ percent
  := by
  rw [isDigit, decide_eq_true_iff] at hc
  refine ⟨?_, ?_, ?_, ?_⟩
  · rw [isSpace, decide_eq_true_iff]
    rintro (rfl | h)
    · revert hc
      decide
    · omega
  · rintro rfl
    revert hc
    decide
  · rintro rfl
    revert hc
    decide
  · rintro rfl
    revert hc
    decide

theorem head_append_ends (hds : ∀ b ∈ ds, isDigit b = true) (hrest : Ends rest) :
  ∃ c r, ds ++ rest = c :: r ∧ ¬ isSpace c = true ∧ c ≠ 0x2d ∧ c ≠ 0x2b ∧ c ≠ percent
  := by
  cases ds with
  | nil =>
      obtain ⟨c, r, rfl, hc⟩ := hrest
      have hchar : ∀ c ∈ [(0x2e : Byte), 0x64, 0x75, 0x78, 0x73],
          ¬ isSpace c = true ∧ c ≠ 0x2d ∧ c ≠ 0x2b ∧ c ≠ percent := by decide
      exact ⟨c, r, rfl, hchar c hc⟩
  | cons b ds => exact ⟨b, ds ++ rest, rfl, not_blank_of_isDigit (hds b List.mem_cons_self)⟩

/-- A number is read from its digits. -/
theorem atoi_append (hds : ∀ b ∈ ds, isDigit b = true) (hrest : Ends rest)
    (hlt : decimal ds < 2 ^ 31) :
  toUnsigned (atoi (ds ++ rest)) = decimal ds
  := by
  have hvalue : digitsValue 0 (ds ++ rest) = decimal ds := digitsValue_append 0 hds hrest
  obtain ⟨c, r, hsplit, hspace, hminus, hplus, -⟩ := head_append_ends hds hrest
  have hdrop : (ds ++ rest).dropWhile isSpace = ds ++ rest := by
    rw [hsplit, List.dropWhile_cons_of_neg hspace]
  have hhead : (ds ++ rest).head? = some c := by rw [hsplit, List.head?_cons]
  rw [atoi, hdrop, hhead, if_neg fun h => hminus (Option.some.inj h),
    if_neg fun h => hplus (Option.some.inj h), hvalue, toUnsigned]
  omega

theorem dropWhile_append_ends (hds : ∀ b ∈ ds, isDigit b = true) (hrest : Ends rest) :
  (ds ++ rest).dropWhile isDigit = rest
  := by
  obtain ⟨c, r, rfl, hc⟩ := hrest
  have hdigit : ∀ c ∈ [(0x2e : Byte), 0x64, 0x75, 0x78, 0x73], ¬ isDigit c = true := by decide
  rw [List.dropWhile_append_of_pos hds, List.dropWhile_cons_of_neg (hdigit c hc)]

/-- What is read of a type -/
def convOf (c : Byte) : Option Conv :=
  if c = 0x64 ∨ c = 0x75 then some (.number false)
  else if c = 0x78 then some (.number true)
  else if c = 0x73 then some .string
  else none

theorem ends_precisionText {precision : Option (List Byte)} (hc : c ∈ [0x64, 0x75, 0x78, 0x73]) :
  Ends (precisionText precision ++ c :: rest)
  := by
  cases precision with
  | none => exact ⟨c, rest, rfl, List.mem_cons_of_mem _ hc⟩
  | some ds => exact ⟨0x2e, ds ++ c :: rest, rfl, List.mem_cons_self⟩

/-- The precision is read, and the type behind it. -/
theorem precision_eq (rest : List Byte) {precision : Option (List Byte)}
    (hprecision : ∀ ds ∈ precision, (∀ b ∈ ds, isDigit b = true) ∧ decimal ds < 2 ^ 31)
    (hc : c ∈ [0x64, 0x75, 0x78, 0x73]) :
  (if decide ((precisionText precision ++ c :: rest).head? = some 0x2e) = true then
      some (toUnsigned (atoi (precisionText precision ++ c :: rest).tail)) else none)
      = precision.map decimal
    ∧ (if decide ((precisionText precision ++ c :: rest).head? = some 0x2e) = true then
      (precisionText precision ++ c :: rest).tail.dropWhile isDigit
      else precisionText precision ++ c :: rest) = c :: rest
  := by
  cases precision with
  | none =>
      have hne : ∀ c ∈ [(0x64 : Byte), 0x75, 0x78, 0x73], c ≠ 0x2e := by decide
      have hhead : decide ((precisionText none ++ c :: rest).head? = some 0x2e) = false :=
        decide_eq_false fun h => hne c hc (Option.some.inj h)
      rw [hhead, if_neg Bool.false_ne_true, if_neg Bool.false_ne_true]
      exact ⟨rfl, rfl⟩
  | some ds =>
      obtain ⟨hds, hlt⟩ := hprecision ds rfl
      have hends : Ends (c :: rest) := ⟨c, rest, rfl, List.mem_cons_of_mem _ hc⟩
      have htail : (precisionText (some ds) ++ c :: rest).tail = ds ++ c :: rest := rfl
      have hhead : decide ((precisionText (some ds) ++ c :: rest).head? = some 0x2e) = true :=
        decide_eq_true rfl
      rw [hhead, if_pos rfl, if_pos rfl, htail, atoi_append hds hends hlt,
        dropWhile_append_ends hds hends]
      exact ⟨rfl, rfl⟩

/-- A hole of the language is read. -/
theorem parseHole_eq {width : List Byte} {precision : Option (List Byte)}
    (hwidth : ∀ b ∈ width, isDigit b = true) (hwidthLt : decimal width < 2 ^ 31)
    (hzero : zero = false → width.head? ≠ some 0x30)
    (hprecision : ∀ ds ∈ precision, (∀ b ∈ ds, isDigit b = true) ∧ decimal ds < 2 ^ 31)
    (hc : c ∈ [0x64, 0x75, 0x78, 0x73]) :
  parseHole (flagText zero ++ (width ++ (precisionText precision ++ c :: rest)))
    = ⟨zero, decimal width, precision.map decimal, convOf c, c :: rest, rest⟩
  := by
  have hends : Ends (precisionText precision ++ c :: rest) := ends_precisionText hc
  have hflag : decide ((flagText zero ++ (width ++ (precisionText precision ++ c :: rest))).head?
      = some 0x30) = zero := by
    cases zero with
    | true => exact decide_eq_true rfl
    | false =>
        apply decide_eq_false
        intro hhead
        have hwidth := hzero rfl
        cases width with
        | nil =>
            obtain ⟨b, r, hsplit, hb⟩ := hends
            have hne : ∀ b ∈ [(0x2e : Byte), 0x64, 0x75, 0x78, 0x73], b ≠ 0x30 := by decide
            rw [flagText, if_neg Bool.false_ne_true, List.nil_append, List.nil_append,
              hsplit] at hhead
            exact hne b hb (Option.some.inj hhead)
        | cons b width => exact hwidth hhead
  have htail : (if zero = true then
      (flagText zero ++ (width ++ (precisionText precision ++ c :: rest))).tail
      else flagText zero ++ (width ++ (precisionText precision ++ c :: rest)))
      = width ++ (precisionText precision ++ c :: rest) := by
    cases zero with
    | false => rfl
    | true => rfl
  have hl : (c :: rest).dropWhile (· = 0x6c) = c :: rest := by
    have hne : ∀ c ∈ [(0x64 : Byte), 0x75, 0x78, 0x73], ¬ decide (c = 0x6c) = true := by decide
    exact List.dropWhile_cons_of_neg (hne c hc)
  obtain ⟨hvalue, htype⟩ := precision_eq rest hprecision hc
  unfold parseHole
  simp only [hflag, htail, atoi_append hwidth hends hwidthLt,
    dropWhile_append_ends hwidth hends, hvalue, htype, hl, List.head?_cons, List.tail_cons,
    Option.some.injEq, convOf]
  split_ifs with hd hx hs
  · rfl
  · rfl
  · rfl
  · simp only [List.mem_cons, List.not_mem_nil, or_false] at hc
    tauto

/-- No `"%%"` is at the start of a hole. -/
theorem head_hole {width : List Byte} {precision : Option (List Byte)}
    (hwidth : ∀ b ∈ width, isDigit b = true) (hc : c ∈ [0x64, 0x75, 0x78, 0x73]) :
  (flagText zero ++ (width ++ (precisionText precision ++ c :: rest))).head? ≠ some percent
  := by
  have hdigits : ∀ b ∈ flagText zero ++ width, isDigit b = true := by
    intro b hb
    rcases List.mem_append.mp hb with hb | hb
    · rw [flagText] at hb
      split at hb
      · rw [List.mem_singleton.mp hb]
        decide
      · cases hb
    · exact hwidth b hb
  obtain ⟨b, r, hsplit, -, -, -, hne⟩ :=
    head_append_ends hdigits (ends_precisionText hc)
  rw [← List.append_assoc, hsplit]
  exact fun h => hne (Option.some.inj h)

end

/-- The pieces of a format of the language -/
theorem consists {parts : List Part} (h : ∀ p ∈ parts, p.Valid) :
  Consists (parts.flatMap Part.format) (parts.flatMap Part.args) (parts.map Part.piece)
  := by
  induction parts with
  | nil => exact .done
  | cons p parts ih =>
      have hrest := ih fun q hq => h q (List.mem_cons_of_mem _ hq)
      have hp := h p List.mem_cons_self
      rw [List.flatMap_cons, List.flatMap_cons, List.map_cons]
      cases p with
      | literal b => exact .char hp.2 hrest
      | percent => exact .percent hrest
      | number zero width type i =>
          obtain ⟨hwidth, hle, hzero⟩ := hp
          have hc : type.char ∈ [0x64, 0x75, 0x78, 0x73] := by
            cases type <;> decide
          have hconv : convOf type.char = some (.number type.hex) := by
            cases type <;> rfl
          have hformat : (Part.number zero width type i).format ++ parts.flatMap Part.format
              = Fmt.percent :: (flagText zero ++ (width ++ (precisionText none
                ++ type.char :: parts.flatMap Part.format))) := by
            simp [Part.format, precisionText]
          have hparse : parseHole (flagText zero ++ (width ++ (precisionText none
              ++ type.char :: parts.flatMap Part.format))) = _ :=
            parseHole_eq hwidth (Nat.lt_of_le_of_lt hle (by decide)) hzero (by simp) hc
          rw [hconv] at hparse
          have hnumber : Consists _ (.number i :: parts.flatMap Part.args)
              (_ :: parts.map Part.piece) :=
            .number (head_hole hwidth hc) (congrArg Hole.conv hparse) (hparse ▸ hrest)
          rw [hparse] at hnumber
          rw [hformat]
          exact hnumber
      | string width precision mem =>
          obtain ⟨hwidth, hle, hzero, hprecision⟩ := hp
          have hc : (0x73 : Byte) ∈ [0x64, 0x75, 0x78, 0x73] := by decide
          have hformat : (Part.string width precision mem).format ++ parts.flatMap Part.format
              = Fmt.percent :: (flagText false ++ (width ++ (precisionText precision
                ++ 0x73 :: parts.flatMap Part.format))) := by
            simp [Part.format, flagText]
          have hparse : parseHole (flagText false ++ (width ++ (precisionText precision
              ++ 0x73 :: parts.flatMap Part.format))) = _ :=
            parseHole_eq hwidth (Nat.lt_of_le_of_lt hle (by decide)) (fun _ => hzero) hprecision hc
          have hstring : Consists _ (.string mem :: parts.flatMap Part.args)
              (_ :: parts.map Part.piece) :=
            .string (head_hole hwidth hc) (congrArg Hole.conv hparse) (hparse ▸ hrest)
          rw [hparse] at hstring
          rw [hformat]
          cases precision with
          | none => exact hstring
          | some ds => exact hstring

/-! ### What a part prints -/

section

variable {intBuf : List Byte} {hex : Bool} {i : BitVec 32}

/-- The characters of a number, and those that are in `intBuf` -/
def Numeric (b : Byte) : Prop := b = 0 ∨ ∃ r < 16, b = digit r

/-- What is in `intBuf`: characters of numbers, and zeros that nothing was stored over -/
structure Filled (intBuf : List Byte) : Prop where
  length : intBuf.length = intBufSize + 1
  numeric : ∀ b ∈ intBuf, Numeric b

theorem filled_start :
  Filled (.replicate (intBufSize + 1) 0)
  := ⟨List.length_replicate, fun _ hb => .inl (List.eq_of_mem_replicate hb)⟩

theorem Filled.flagged (h : Filled intBuf) (zero : Bool) :
  Filled (flagged zero intBuf)
  := by
  refine ⟨length_flagged h.length, ?_⟩
  intro b hb
  rw [Fmt.flagged] at hb
  split at hb
  · rcases List.mem_append.mp hb with hb | hb
    · exact .inr ⟨0, by decide, List.eq_of_mem_replicate hb⟩
    · exact h.numeric b (List.mem_of_mem_drop hb)
  · exact h.numeric b hb

/-- Whatever is printed, `intBuf` has characters of numbers in it. -/
theorem Filled.after (h : Filled intBuf) (a : Piece) :
  Filled (a.intBuf intBuf)
  := by
  cases a with
  | char b => exact h
  | blank zero => exact h.flagged zero
  | string zero width s => exact h.flagged zero
  | number zero width hex i =>
      refine ⟨length_intBuf h.length, ?_⟩
      intro b hb
      rw [Piece.intBuf, uintToStr_flagged h.length] at hb
      rcases List.mem_append.mp hb with hb | hb
      · rcases List.mem_append.mp hb with hb | hb
        · exact (h.flagged zero).numeric b (List.mem_of_mem_take hb)
        · exact .inr (exists_digit_of_mem_numeral hb)
      · exact (h.flagged zero).numeric b (List.mem_of_mem_drop hb)

/-- What a number prints is taken from `intBuf`. -/
theorem Filled.numeric_text (h : Filled intBuf) {zero : Bool} {width : ℕ} {b : Byte}
    (hb : b ∈ (Piece.number zero width hex i).text intBuf) :
  Numeric b
  := by
  apply (h.after (.number zero width hex i)).numeric
  exact List.mem_of_mem_drop (List.mem_of_mem_take hb)

/-- A number with the flag, or one that is not padded, prints what it should. -/
theorem text_number (h : intBuf.length = intBufSize + 1) {zero : Bool} {width : ℕ}
    (hwidth : width ≤ intBufSize)
    (hplain : zero = true ∨ width ≤ (numeral (base hex) i.toNat).length) :
  (Piece.number zero width hex i).text intBuf
    = (numeral (base hex) i.toNat).leftpad width (if zero = true then 0x30 else 0x20)
  := by
  have hle := numeral_length_le hex i
  rw [Piece.text, uintToStr_flagged h, ← length_numeral]
  generalize numeral (base hex) i.toNat = num at *
  have hpad : ((flagged zero intBuf).take (intBufSize - num.length)).drop
        (intBufSize - max num.length width)
      = .replicate (width - num.length) (if zero = true then 0x30 else 0x20) := by
    rcases hplain with rfl | hle'
    · have hsum : intBufSize - num.length - (intBufSize - max num.length width)
          = width - num.length := by omega
      rw [flagged, if_pos rfl, if_pos rfl, List.take_append_of_le_length, List.take_replicate,
        List.drop_replicate, Nat.min_eq_left (Nat.sub_le _ _), hsum]
      rw [List.length_replicate]
      exact Nat.sub_le _ _
    · rw [Nat.max_eq_left hle', Nat.sub_eq_zero_of_le hle', List.replicate_zero,
        List.drop_eq_nil_iff, List.length_take]
      exact Nat.min_le_left _ _
  have hlen : ((flagged zero intBuf).take (intBufSize - num.length)).length
      = intBufSize - num.length := by
    rw [List.length_take, length_flagged h]
    omega
  have hprinted : (List.replicate (width - num.length) (if zero = true then (0x30 : Byte) else 0x20)
      ++ num).length = max num.length width := by
    rw [List.length_append, List.length_replicate]
    omega
  dsimp only
  rw [List.append_assoc, List.drop_append_of_le_length, hpad, ← List.append_assoc,
    List.take_append_of_le_length, ← hprinted, List.take_length, List.leftpad]
  · exact Nat.le_of_eq hprinted.symm
  · rw [hlen]
    omega

/-- A blank and a sign are not characters of numbers. -/
theorem not_numeric :
  ¬ Numeric 0x20 ∧ ¬ Numeric 0x2d
  := by
  have hdigit : ∀ r < 16, (0x20 : Byte) ≠ digit r ∧ (0x2d : Byte) ≠ digit r := by decide
  constructor
  · rintro (h | ⟨r, hr, h⟩)
    · cases h
    · exact (hdigit r hr).1 h
  · rintro (h | ⟨r, hr, h⟩)
    · cases h
    · exact (hdigit r hr).2 h

/-- A number that is not negative is printed by its digits. -/
theorem numberText_eq {type : NumberType} (h : type = .d → 0 ≤ i.toInt) :
  type.text i = numeral (base type.hex) i.toNat
  := by
  cases type with
  | u => rfl
  | x => rfl
  | d =>
      have hle := h rfl
      have habs : i.toInt.natAbs = i.toNat := by
        rw [BitVec.toInt_eq_toNat_cond] at hle ⊢
        split at hle
        · omega
        · omega
      rw [NumberType.text, if_neg (Int.not_lt.mpr hle), habs]
      rfl

/-- Where a number is to be printed with a sign or with blanks, a character is to be printed that
is not one of numbers. -/
theorem exists_not_numeric {zero : Bool} {width : List Byte} {type : NumberType}
    (h : ¬ (Part.number zero width type i).Plain) :
  ∃ j < (Part.number zero width type i).piece.length, ∃ c,
    (Part.number zero width type i).text[j]? = some c ∧ ¬ Numeric c
  := by
  by_cases hneg : type = .d → 0 ≤ i.toInt
  · have hpad : ¬ (zero = true ∨ decimal width ≤ (numeral (base type.hex) i.toNat).length) :=
      fun hpad => h ⟨hpad, hneg⟩
    rw [not_or, Nat.not_le] at hpad
    have hpos : 0 < decimal width - (numeral (base type.hex) i.toNat).length := by omega
    refine ⟨0, ?_, 0x20, ?_, not_numeric.1⟩
    · rw [Part.piece, Piece.length]
      omega
    · rw [Part.text, numberText_eq hneg, if_neg hpad.1, List.leftpad,
        List.getElem?_append_left (by rwa [List.length_replicate]), List.getElem?_replicate,
        if_pos hpos]
  · rw [Classical.not_imp, Int.not_le] at hneg
    obtain ⟨rfl, hneg⟩ := hneg
    have hnum := List.length_pos_iff.mpr (numeral_ne_nil 10 i.toInt.natAbs)
    have hcount := List.length_pos_iff.mpr (numeral_ne_nil (base false) i.toNat)
    rw [length_numeral] at hcount
    refine ⟨decimal width - ((numeral 10 i.toInt.natAbs).length + 1), ?_, 0x2d, ?_, not_numeric.2⟩
    · rw [Part.piece, Piece.length]
      show _ < max (digitCount false i.toNat) (decimal width)
      omega
    · rw [Part.text, NumberType.text, if_pos hneg, List.leftpad, List.length_cons,
        List.getElem?_append_right (by rw [List.length_replicate]), List.length_replicate,
        Nat.sub_self, List.getElem?_cons_zero]

theorem append_ne_append {l l' r r' : List Byte} {j : ℕ} {b c : Byte} (hb : l[j]? = some b)
    (hc : l'[j]? = some c) (hne : b ≠ c) :
  l ++ r ≠ l' ++ r'
  := by
  intro h
  have hget := congrArg (·[j]?) h
  rw [List.getElem?_append_left (List.getElem?_eq_some_iff.mp hb).1,
    List.getElem?_append_left (List.getElem?_eq_some_iff.mp hc).1, hb, hc] at hget
  exact hne (Option.some.inj hget)

theorem fits_piece {p : Part} (h : p.Valid) :
  p.piece.Fits
  := by
  cases p with
  | literal b => trivial
  | percent => trivial
  | number zero width type i => exact h.2.1
  | string width precision mem =>
      cases precision with
      | none => trivial
      | some ds => trivial

/-- A plain part prints what it should. -/
theorem text_piece (h : intBuf.length = intBufSize + 1) {p : Part} (hvalid : p.Valid)
    (hplain : p.Plain) :
  p.piece.text intBuf = p.text
  := by
  cases p with
  | literal b => rfl
  | percent => rfl
  | number zero width type i =>
      rw [Part.text, numberText_eq hplain.2]
      exact text_number h hvalid.2.1 hplain.1
  | string width precision mem =>
      cases precision with
      | none => rfl
      | some ds => rfl

/-- Another part prints something else, where the text of it starts. -/
theorem text_piece_differs (h : Filled intBuf) {p : Part} (hvalid : p.Valid)
    (hplain : ¬ p.Plain) :
  ∃ (j : ℕ) (b c : Byte), (p.piece.text intBuf)[j]? = some b ∧ p.text[j]? = some c ∧ b ≠ c
  := by
  cases p with
  | literal b => exact absurd trivial hplain
  | percent => exact absurd trivial hplain
  | string width precision mem => exact absurd trivial hplain
  | number zero width type i =>
      obtain ⟨j, hj, c, hc, hnumeric⟩ := exists_not_numeric hplain
      rw [← length_text h.length (fits_piece hvalid)] at hj
      refine ⟨j, _, c, List.getElem?_eq_getElem hj, hc, ?_⟩
      intro hbc
      apply hnumeric
      rw [← hbc]
      exact h.numeric_text (List.getElem_mem hj)

/-- The parts print what they should exactly if they are plain. -/
theorem printed_eq_iff (h : Filled intBuf) {parts : List Part} (hvalid : ∀ p ∈ parts, p.Valid) :
  printed intBuf (parts.map Part.piece) = parts.flatMap Part.text ↔ ∀ p ∈ parts, p.Plain
  := by
  induction parts generalizing intBuf with
  | nil => simp [printed]
  | cons p parts ih =>
      have hp := hvalid p List.mem_cons_self
      have hrest := ih (h.after p.piece) fun q hq => hvalid q (List.mem_cons_of_mem _ hq)
      rw [List.map_cons, printed, List.flatMap_cons, List.forall_mem_cons]
      by_cases hplain : p.Plain
      · rw [text_piece h.length hp hplain, List.append_cancel_left_eq, hrest]
        exact (and_iff_right hplain).symm
      · obtain ⟨j, b, c, hb, hc, hne⟩ := text_piece_differs h hp hplain
        constructor
        · intro heq
          exact absurd heq (append_ne_append hb hc hne)
        · rintro ⟨hplain', -⟩
          exact absurd hplain' hplain

end

/-! ### The formatter -/

section

variable {buf : ℕ → Byte} {n : ℕ} {fmt : List Byte} {parts : List Part}

/-- `fmtVsnprintf` stores the text with a zero behind it, and returns its length. -/
def Renders (buf : ℕ → Byte) (n : ℕ) (fmt : List Byte) (ap : List Arg) (text : List Byte) : Prop :=
  ∃ k₀, ∀ k ≥ k₀, Returns (start buf n ap) (fmtVsnprintf k fmt) fun r q =>
    r = text.length ∧ q.text = text ∧ q.buf r = 0

/-- A text is stored exactly if it is what the pieces print, and there is room for it. -/
theorem renders_iff_printed {ap : List Arg} {ps : List Piece} {text : List Byte} (hn : n < 2 ^ 32)
    (hc : Consists (cstr fmt) ap ps) (hfits : ∀ q ∈ ps, q.Fits) (hroom : text.length < n) :
  Renders buf n fmt ap text ↔ printed (.replicate (intBufSize + 1) 0) ps = text
  := by
  constructor
  · rintro ⟨k₀, hrenders⟩
    have hk : fmt.length < k₀ + fmt.length + 1 := by omega
    have hreturns := hrenders (k₀ + fmt.length + 1 + 1) (by omega)
    have hlt := (short_of_returns hn hc hk hreturns).1
    obtain ⟨r, q, hrun, -, htext, -⟩ := hreturns
    obtain ⟨-, -, hprinted⟩ := (fmtSnprintf_text buf hc hfits hn hlt hk.le).done hrun
    rw [← hprinted, htext]
  · rintro rfl
    rw [length_printed List.length_replicate hfits] at hroom
    refine ⟨fmt.length + 2, ?_⟩
    intro k hk
    obtain ⟨k, rfl⟩ := Nat.exists_eq_succ_of_ne_zero (Nat.ne_zero_of_lt hk)
    apply (fmtSnprintf_text buf hc hfits hn hroom (by omega)).mono
    rintro r q ⟨rfl, hzero, htext⟩
    exact ⟨(length_printed List.length_replicate hfits).symm, htext, hzero⟩

/-- The documented text is printed exactly if every number has the flag or a width that is not
larger than the number of its digits, and no signed one is negative. -/
theorem renders_iff (hvalid : ∀ p ∈ parts, p.Valid) (hfmt : cstr fmt = parts.flatMap Part.format)
    (hn : n < 2 ^ 32) (hroom : (parts.flatMap Part.text).length < n) :
  Renders buf n fmt (parts.flatMap Part.args) (parts.flatMap Part.text) ↔ ∀ p ∈ parts, p.Plain
  := by
  have hc : Consists (cstr fmt) _ _ := hfmt ▸ consists hvalid
  have hfits : ∀ q ∈ parts.map Part.piece, q.Fits := by
    intro q hq
    obtain ⟨p, hp, rfl⟩ := List.mem_map.mp hq
    exact fits_piece (hvalid p hp)
  rw [renders_iff_printed hn hc hfits hroom]
  exact printed_eq_iff filled_start hvalid

/-- The format `x%03u` with the argument 7. -/
theorem renders_iff_flag :
  Renders (fun _ => 0) 8 [0x78, 0x25, 0x30, 0x33, 0x75] [.number 7] [0x78, 0x30, 0x30, 0x37]
  := by
  have hvalid : ∀ p ∈ [Part.literal 0x78, .number true [0x33] .u 7], p.Valid := by
    simp only [List.forall_mem_cons]
    exact ⟨⟨by decide, by decide⟩, ⟨by decide, by decide, nofun⟩, List.forall_mem_nil _⟩
  have htext : [Part.literal 0x78, .number true [0x33] .u 7].flatMap Part.text
      = [0x78, 0x30, 0x30, 0x37] := by
    simp [Part.text, NumberType.text, numeral, digit, decimal, List.leftpad]
  have hrenders : Renders (fun _ => 0) 8 [0x78, 0x25, 0x30, 0x33, 0x75] _
      ([Part.literal 0x78, .number true [0x33] .u 7].flatMap Part.text) ↔ _ :=
    renders_iff hvalid rfl (by decide) (by rw [htext]; decide)
  rw [← htext]
  apply hrenders.mpr
  simp only [List.forall_mem_cons]
  exact ⟨trivial, ⟨.inl rfl, fun h => by cases h⟩, List.forall_mem_nil _⟩

/-- The format `%u%5u` with the arguments 12345 and 7 prints `1234512347`. -/
theorem not_renders :
  ¬ Renders (fun _ => 0) 64 [0x25, 0x75, 0x25, 0x35, 0x75] [.number 12345, .number 7]
    ([Part.number false [] .u 12345, .number false [0x35] .u 7].flatMap Part.text)
  := by
  have htext : [Part.number false [] .u 12345, .number false [0x35] .u 7].flatMap Part.text
      = [0x31, 0x32, 0x33, 0x34, 0x35, 0x20, 0x20, 0x20, 0x20, 0x37] := by
    simp [Part.text, NumberType.text, numeral, digit, decimal, List.leftpad]
  have hc : Consists (cstr [0x25, 0x75, 0x25, 0x35, 0x75]) [.number 12345, .number 7]
      [.number false 0 false 12345, .number false 5 false 7] :=
    .number (by decide) (by decide) (.number (by decide) (by decide) .done)
  have hfits : ∀ q ∈ [Piece.number false 0 false 12345, .number false 5 false 7], q.Fits := by
    simp only [List.forall_mem_cons]
    have hwidth : 5 ≤ intBufSize := by decide
    exact ⟨Nat.zero_le _, hwidth, List.forall_mem_nil _⟩
  rw [htext]
  intro hrenders
  have hprinted := (renders_iff_printed (by decide) hc hfits (by decide)).mp hrenders
  revert hprinted
  decide

end

end Fmt
