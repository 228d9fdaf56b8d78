import Mathlib.Data.List.Basic
import Manos.Fmt.Code
import Manos.Lib.Exec
import Manos.Lib.Word32
import Manos.Lib.Words

/-!
# The commands of a uart

`sysuartctl`, which applies the commands of a line of text.  Pointers into the text are lists: the
characters from the pointer on, up to the zero that ends the text.  To read behind it is a fault.
-/

namespace Dev

open Exec

/-! ### Parsing -/

/-- `' '` and `'\t'` -/
def isBlank (c : Byte) : Bool := c = 0x20 || c = 0x09

/-- The end of the text, or `'\n'` -/
def endsLine (c : Byte) : Bool := c = 0 || c = 0x0a

/-- The inner loop of `parseCmds`, which moves `c` behind a command; nothing if it reads behind the
text. -/
def skipCmd : List Byte → Option (List Byte)
  | [] => none
  | c :: l => if isBlank c then some (c :: l) else skipCmd l

/-- `parseCmds(s, buf, n)`: what is stored to `buf`; nothing if it reads behind the text. -/
def parseCmds : ℕ → List Byte → Option (List (List Byte))
  | 0, _ => some []
  | n + 1, s =>
      match s.dropWhile isBlank with
      | [] => none
      | c :: l =>
          if endsLine c then some []
          else do
            let rest ← skipCmd (c :: l)
            let buf ← parseCmds n rest
            return (c :: l) :: buf

/-- The commands that are written in the first line of a text -/
abbrev cmdsOf (s : List Byte) : List (List Byte) := Words.words isBlank endsLine s

/-- All that is read is in the text, and the first commands of its line are found, at most `n` of
them. -/
def ParsesInside (n : ℕ) (s : List Byte) : Prop := parseCmds n s = some ((cmdsOf s).take n)

/-- The line ends at the start of the text. -/
def LineEnds (s : List Byte) : Prop := ∃ c ∈ s.head?, endsLine c = true

/-- There are more than `n` commands, or none, or a blank at the end of the line.  Or there is a
blank in a later line, and what is between it and the last command is taken to belong to the command:
then there are just `n` commands, or behind the blank a line ends. -/
def Delimited (n : ℕ) (s : List Byte) : Prop :=
  n < (cmdsOf s).length ∨ cmdsOf s = []
    ∨ (∃ c ∈ (Words.line endsLine s).getLast?, isBlank c = true)
    ∨ ((∃ c ∈ Words.behind endsLine s, isBlank c = true)
      ∧ (n = (cmdsOf s).length
        ∨ LineEnds (((Words.behind endsLine s).dropWhile (!isBlank ·)).dropWhile isBlank)))

variable {n : ℕ} {s l p w : List Byte} {c : Byte}

theorem not_endsLine_of_isBlank (h : isBlank c = true) :
  endsLine c = false
  := by
  simp only [isBlank, Bool.or_eq_true, decide_eq_true_eq] at h
  rcases h with rfl | rfl
  · rfl
  · rfl

/-- The loop over a command ends at the first blank. -/
theorem skipCmd_eq_some_iff {rest : List Byte} :
  skipCmd l = some rest ↔ (∃ c ∈ l, isBlank c = true) ∧ l.dropWhile (!isBlank ·) = rest
  := by
  induction l with
  | nil => exact iff_of_false nofun fun h => by simp at h
  | cons c l ih =>
      rw [skipCmd]
      by_cases hc : isBlank c = true
      · rw [if_pos hc, List.dropWhile_cons_of_neg (by simp [hc]), Option.some.injEq]
        exact (and_iff_right ⟨c, List.mem_cons_self, hc⟩).symm
      · have hmem : (∃ b ∈ c :: l, isBlank b = true) ↔ ∃ b ∈ l, isBlank b = true := by
          simp [hc]
        rw [if_neg hc, ih, List.dropWhile_cons_of_pos (by simp [hc]), hmem]

theorem skipCmd_append (hp : ∀ c ∈ p, isBlank c = false) :
  skipCmd (p ++ w) = skipCmd w
  := by
  induction p with
  | nil => rfl
  | cons c p ih =>
      rw [List.forall_mem_cons] at hp
      rw [List.cons_append, skipCmd, if_neg (by rw [hp.1]; nofun), ih hp.2]

theorem cmdsOf_append (hp : ∀ b ∈ p, isBlank b = true) (l : List Byte) :
  cmdsOf (p ++ l) = cmdsOf l
  := Words.words_append fun b hb => ⟨hp b hb, not_endsLine_of_isBlank (hp b hb)⟩

/-- The text `s` starts with the blanks `p` and the characters `t` of a command, and goes on with
`w`. -/
structure Starts (s p t w : List Byte) : Prop where
  split : s = p ++ (t ++ w)
  blanks : ∀ b ∈ p, isBlank b = true
  cmd : ∀ b ∈ t, isBlank b = false ∧ endsLine b = false
  ne : t ≠ []
  behind : ∃ b ∈ w.head?, isBlank b = true ∨ endsLine b = true
  zero : 0 ∈ w

theorem mem_of_dropWhile {f : Byte → Bool} (h : c ∈ l) (hf : f c = false) :
  c ∈ l.dropWhile f
  := by
  rw [← List.takeWhile_append_dropWhile (p := f) (l := l), List.mem_append] at h
  rcases h with h | h
  · have hpos := List.mem_takeWhile_imp h
    rw [hf] at hpos
    cases hpos
  · exact h

theorem not_of_dropWhile {f : Byte → Bool} {r : List Byte} (h : l.dropWhile f = c :: r) :
  f c = false
  := by
  have hhead := List.head?_dropWhile_not f l
  rw [h] at hhead
  exact hhead

/-- A text has no command in its line, or it starts with one. -/
theorem starts_cases (h : 0 ∈ s) :
  (LineEnds (s.dropWhile isBlank) ∧ cmdsOf s = []) ∨ ∃ p t w, Starts s p t w
  := by
  have hs := List.takeWhile_append_dropWhile (p := isBlank) (l := s)
  have hblanks : ∀ b ∈ s.takeWhile isBlank, isBlank b = true := fun b hb => List.mem_takeWhile_imp hb
  have hzero : 0 ∈ s.dropWhile isBlank := mem_of_dropWhile h rfl
  cases hd : s.dropWhile isBlank with
  | nil =>
      rw [hd] at hzero
      cases hzero
  | cons c l =>
      have hc : isBlank c = false := not_of_dropWhile hd
      rw [hd] at hs hzero
      by_cases hend : endsLine c = true
      · left
        refine ⟨⟨c, rfl, hend⟩, ?_⟩
        rw [← hs, cmdsOf_append hblanks]
        exact Words.words_stop hend
      · right
        have hin : Words.inWord isBlank endsLine c = true :=
          Words.inWord_iff.mpr ⟨hc, eq_false_of_ne_true hend⟩
        have hl := List.takeWhile_append_dropWhile (p := Words.inWord isBlank endsLine) (l := c :: l)
        have hw : 0 ∈ (c :: l).dropWhile (Words.inWord isBlank endsLine) :=
          mem_of_dropWhile hzero rfl
        refine ⟨s.takeWhile isBlank, (c :: l).takeWhile (Words.inWord isBlank endsLine),
          (c :: l).dropWhile (Words.inWord isBlank endsLine), ?_⟩
        constructor
        case split => rw [hl, hs]
        case blanks => exact hblanks
        case cmd =>
          intro b hb
          exact Words.inWord_iff.mp (List.mem_takeWhile_imp hb)
        case ne =>
          rw [List.takeWhile_cons_of_pos hin]
          nofun
        case zero => exact hw
        case behind =>
          cases hrest : (c :: l).dropWhile (Words.inWord isBlank endsLine) with
          | nil =>
              rw [hrest] at hw
              cases hw
          | cons b r =>
              have hb := not_of_dropWhile hrest
              refine ⟨b, rfl, ?_⟩
              simp only [Words.inWord, Bool.and_eq_false_iff, Bool.not_eq_false'] at hb
              exact hb

/-- Nothing is parsed if nothing is asked for or the line has only blanks. -/
theorem parseCmds_eq_nil_iff :
  parseCmds n s = some [] ↔ n = 0 ∨ LineEnds (s.dropWhile isBlank)
  := by
  cases n with
  | zero => exact iff_of_true rfl (.inl rfl)
  | succ n =>
      rw [or_iff_right (Nat.succ_ne_zero n), parseCmds]
      cases s.dropWhile isBlank with
      | nil => exact iff_of_false nofun nofun
      | cons c l =>
          simp only [LineEnds, List.head?_cons, Option.mem_some_iff, exists_eq_left']
          split_ifs with hend
          · exact iff_of_true rfl hend
          · refine iff_of_false ?_ hend
            simp [Option.bind_eq_some_iff]

namespace Starts

variable {t : List Byte}

theorem dropWhile_eq (h : Starts s p t w) :
  s.dropWhile isBlank = t ++ w
  := by
  obtain ⟨b, t, rfl⟩ := List.exists_cons_of_ne_nil h.ne
  have hb := (h.cmd b List.mem_cons_self).1
  rw [h.split, List.dropWhile_append_of_pos h.blanks, List.cons_append,
    List.dropWhile_cons_of_neg (by rw [hb]; nofun)]

theorem inWord (h : Starts s p t w) :
  ∀ b ∈ t, Words.inWord isBlank endsLine b = true
  := fun b hb => Words.inWord_iff.mpr (h.cmd b hb)

theorem head_not_inWord (h : Starts s p t w) :
  ∀ b ∈ w.head?, Words.inWord isBlank endsLine b = false
  := by
  intro b hb
  obtain ⟨b', hb', hor⟩ := h.behind
  obtain rfl := Option.mem_unique hb hb'
  rcases hor with hblank | hend
  · simp [Words.inWord, hblank]
  · simp [Words.inWord, hend]

/-- The first command, and those behind it -/
theorem cmdsOf_eq (h : Starts s p t w) :
  cmdsOf s = (t ++ w) :: cmdsOf w
  := by
  rw [h.split, cmdsOf_append h.blanks]
  exact Words.words_word_append h.inWord h.ne h.head_not_inWord

/-- A command is parsed, and then the rest of the text. -/
theorem parsesInside_iff (h : Starts s p t w) :
  ParsesInside (n + 1) s ↔ ∃ rest, skipCmd w = some rest ∧ parseCmds n rest = some ((cmdsOf w).take n)
  := by
  have hskip : skipCmd (t ++ w) = skipCmd w := skipCmd_append fun b hb => (h.cmd b hb).1
  have hdrop := h.dropWhile_eq
  have hcmds := h.cmdsOf_eq
  obtain ⟨b, t, rfl⟩ := List.exists_cons_of_ne_nil h.ne
  have hb := (h.cmd b List.mem_cons_self).2
  rw [ParsesInside, parseCmds, hdrop, hcmds, List.take_succ_cons]
  rw [List.cons_append] at hskip ⊢
  dsimp only
  rw [if_neg (by rw [hb]; nofun), hskip]
  simp [Option.bind_eq_some_iff]

/-- The line of the text -/
theorem line_eq (h : Starts s p t w) :
  Words.line endsLine s = p ++ t ++ Words.line endsLine w
  := by
  rw [h.split, ← List.append_assoc]
  apply Words.line_append
  intro b hb
  rcases List.mem_append.mp hb with hb | hb
  · exact not_endsLine_of_isBlank (h.blanks b hb)
  · exact (h.cmd b hb).2

theorem behind_eq (h : Starts s p t w) :
  Words.behind endsLine s = Words.behind endsLine w
  := by
  rw [h.split, ← List.append_assoc]
  apply Words.behind_append
  intro b hb
  rcases List.mem_append.mp hb with hb | hb
  · exact not_endsLine_of_isBlank (h.blanks b hb)
  · exact (h.cmd b hb).2

/-- Behind a command that a blank ends the text goes on. -/
theorem delimited_blank (h : Starts s p t w) {b : Byte} (hb : b ∈ w.head?)
    (hblank : isBlank b = true) :
  Delimited (n + 1) s ↔ Delimited n w
  := by
  have hne : Words.line endsLine w ≠ [] := by
    obtain ⟨w, rfl⟩ := List.head?_eq_some_iff.mp hb
    rw [Words.line, List.takeWhile_cons_of_pos (by rw [not_endsLine_of_isBlank hblank]; rfl)]
    nofun
  have hlast : (Words.line endsLine s).getLast? = (Words.line endsLine w).getLast? := by
    rw [h.line_eq, List.getLast?_append_of_ne_nil _ hne]
  have hlen : (cmdsOf s).length = (cmdsOf w).length + 1 := by
    rw [h.cmdsOf_eq, List.length_cons]
  have hcmds : cmdsOf s ≠ [] := by
    rw [h.cmdsOf_eq]
    nofun
  rw [Delimited, Delimited, hlast, hlen, h.behind_eq, or_iff_right hcmds, Nat.add_lt_add_iff_right,
    Nat.add_right_cancel_iff]
  by_cases hnone : cmdsOf w = []
  · -- the line goes on with blanks only
    have hblanks := Words.words_eq_nil_iff.mp hnone
    have hend : ∃ c ∈ (Words.line endsLine w).getLast?, isBlank c = true :=
      ⟨_, List.getLast?_eq_some_getLast hne, hblanks _ (List.getLast_mem hne)⟩
    exact iff_of_true (.inr (.inl hend)) (.inr (.inl hnone))
  · rw [or_iff_right (a := cmdsOf w = []) hnone]

/-- A command at the end of its line is parsed as if it went on behind it. -/
theorem delimited_end (h : Starts s p t w) {b : Byte} (hb : b ∈ w.head?)
    (hend : endsLine b = true) :
  Delimited (n + 1) s ↔ (∃ c ∈ w, isBlank c = true)
    ∧ (n = 0 ∨ LineEnds ((w.dropWhile (!isBlank ·)).dropWhile isBlank))
  := by
  have hempty : Words.line endsLine w = [] ∧ Words.behind endsLine w = w ∧ cmdsOf w = [] := by
    obtain ⟨w, rfl⟩ := List.head?_eq_some_iff.mp hb
    have hneg : ¬ (!endsLine b) = true := by rw [hend]; nofun
    exact ⟨List.takeWhile_cons_of_neg hneg, List.dropWhile_cons_of_neg hneg, Words.words_stop hend⟩
  obtain ⟨hline, hbehind, hcmds⟩ := hempty
  have hlast : ¬ ∃ c ∈ (Words.line endsLine s).getLast?, isBlank c = true := by
    rintro ⟨c, hc, hblank⟩
    rw [h.line_eq, hline, List.append_nil, List.getLast?_append_of_ne_nil _ h.ne] at hc
    rw [(h.cmd c (List.mem_of_getLast? hc)).1] at hblank
    cases hblank
  have hone : cmdsOf s = [t ++ w] := by rw [h.cmdsOf_eq, hcmds]
  rw [Delimited, h.behind_eq, hbehind, hone, or_iff_right hlast, List.length_singleton]
  have hlt : ¬ n + 1 < 1 := by omega
  rw [or_iff_right hlt, or_iff_right (List.cons_ne_nil _ _), Nat.add_eq_right]

end Starts

/-- The parser stays inside the text and finds the commands exactly if they are delimited. -/
theorem parsesInside_iff_delimited (h : 0 ∈ s) :
  ParsesInside n s ↔ Delimited n s
  := by
  induction n generalizing s with
  | zero =>
      refine iff_of_true rfl ?_
      rw [Delimited, List.length_pos_iff, ← or_assoc]
      exact .inl (ne_or_eq (cmdsOf s) [])
  | succ n ih =>
      obtain ⟨hend, hnone⟩ | ⟨p, t, w, hstarts⟩ := starts_cases h
      · refine iff_of_true ?_ (.inr (.inl hnone))
        rw [ParsesInside, hnone, List.take_nil, parseCmds_eq_nil_iff]
        exact .inr hend
      · rw [hstarts.parsesInside_iff]
        obtain ⟨b, hb, hblank | hend⟩ := hstarts.behind
        · rw [hstarts.delimited_blank hb hblank, ← ih hstarts.zero, ParsesInside]
          obtain ⟨w, rfl⟩ := List.head?_eq_some_iff.mp hb
          rw [skipCmd, if_pos hblank]
          simp only [Option.some.injEq, exists_eq_left']
        · rw [hstarts.delimited_end hb hend]
          obtain ⟨w, rfl⟩ := List.head?_eq_some_iff.mp hb
          have hcmds : cmdsOf (b :: w) = [] := Words.words_stop hend
          simp only [skipCmd_eq_some_iff, hcmds, List.take_nil, parseCmds_eq_nil_iff, and_assoc,
            exists_and_left, exists_eq_left']

/-! ### Applying commands -/

/-- What a command asks the hardware for -/
inductive UartCmd where
  | baud (arg : ℕ)
  | bits (arg : ℤ)
deriving DecidableEq

/-- The functions `baud` and `bits` of `uart->hw` -/
structure UartHW (σ : Type) where
  baud : ℕ → Exec σ ℤ
  bits : ℤ → Exec σ ℤ

/-- A call of one of the functions -/
def UartHW.call {σ : Type} (hw : UartHW σ) : UartCmd → Exec σ ℤ
  | .baud arg => hw.baud arg
  | .bits arg => hw.bits arg

/-- The `switch` of `sysuartctl` -/
def uartCmd (type : Byte) (arg : ℕ) : Option UartCmd :=
  if type = 0x42 ∨ type = 0x62 then some (.baud arg)
  else if type = 0x4c ∨ type = 0x6c then some (.bits (Word32.toSigned arg))
  else none

/-- The loop of `sysuartctl` -/
def applyCmds {σ : Type} (hw : UartHW σ) : List (List Byte) → Exec σ ℤ
  | [] => return 0
  | [] :: _ => fault (.wild "cmds")
  | (c :: l) :: cmds =>
      match uartCmd c (Fmt.toUnsigned (Fmt.atoi l)) with
      | none => applyCmds hw cmds
      | some x => do
          let r ← hw.call x
          if r < 0 then return -1 else applyCmds hw cmds

/-- `sysuartctl(uart, cmd)` -/
def sysuartctl {σ : Type} (hw : UartHW σ) (cmd : List Byte) : Exec σ ℤ :=
  match parseCmds 2 cmd with
  | none => fault (.wild "cmd")
  | some cmds => applyCmds hw cmds

/-- What a text that starts with a command asks for, if it is one of those that are known -/
def asked : List Byte → Option UartCmd
  | [] => none
  | c :: l => uartCmd c (Fmt.toUnsigned (Fmt.atoi l))

/-- The characters of a command -/
abbrev ownText (t : List Byte) : List Byte := Words.own isBlank endsLine t

/-- What the commands that are written in the line ask for, each by its own characters -/
def written (s : List Byte) : List UartCmd := (cmdsOf s).filterMap fun t => asked (ownText t)

/-- The hardware is asked one after another, until it refuses. -/
def askAll {σ : Type} (hw : UartHW σ) : List UartCmd → Exec σ ℤ
  | [] => return 0
  | x :: l => do
      let r ← hw.call x
      if r < 0 then return -1 else askAll hw l

/-- For any hardware, just the commands that are written are applied. -/
def AppliesWritten (s : List Byte) : Prop :=
  ∀ (σ : Type) (hw : UartHW σ), sysuartctl hw s = askAll hw (written s)

/-- The command has one of the types `b` and `l`. -/
def Known (t : List Byte) : Prop := ∃ c ∈ t.head?, c ∈ [(0x42 : Byte), 0x62, 0x4c, 0x6c]

/-- Behind its type the command has a character other than white space, or there is no number other
than `0` behind the white space. -/
def HasArgument (t : List Byte) : Prop :=
  (∃ c ∈ (ownText t).tail, Fmt.isSpace c = false) ∨ Fmt.atoi t.tail = 0

/-- The known ones of the first two commands have their arguments, and those behind them are not
known. -/
structure ArgumentsWritten (s : List Byte) : Prop where
  first : ∀ t ∈ (cmdsOf s).take 2, Known t → HasArgument t
  others : ∀ t ∈ (cmdsOf s).drop 2, ¬ Known t

/-! #### Arguments -/

theorem atoi_bounds (l : List Byte) :
  -2 ^ 31 ≤ Fmt.atoi l ∧ Fmt.atoi l ≤ 2 ^ 31 - 1
  := by
  simp only [Fmt.atoi]
  split_ifs
  · omega
  · omega
  · omega

theorem toUnsigned_inj {x y : ℤ} (hx : -2 ^ 31 ≤ x ∧ x ≤ 2 ^ 31 - 1)
    (hy : -2 ^ 31 ≤ y ∧ y ≤ 2 ^ 31 - 1) :
  Fmt.toUnsigned x = Fmt.toUnsigned y ↔ x = y
  := by
  rw [Fmt.toUnsigned, Fmt.toUnsigned]
  omega

/-- Behind the digits of a number the text does not matter. -/
theorem digitsValue_append {v : ℕ} {x : List Byte} (hw : ∀ c ∈ w.head?, Fmt.isDigit c = false) :
  Fmt.digitsValue v (x ++ w) = Fmt.digitsValue v x
  := by
  induction x generalizing v with
  | nil =>
      cases w with
      | nil => rfl
      | cons c w =>
          have hc := hw c rfl
          simp [Fmt.digitsValue, hc]
  | cons c x ih => rw [List.cons_append, Fmt.digitsValue, Fmt.digitsValue, ih]

/-- The number at the start of a text is read from its own characters, if they are not only white
space. -/
theorem atoi_append {x : List Byte} (hw : ∀ c ∈ w.head?, Fmt.isDigit c = false)
    (hx : ∃ c ∈ x, Fmt.isSpace c = false) :
  Fmt.atoi (x ++ w) = Fmt.atoi x
  := by
  have hne : x.dropWhile Fmt.isSpace ≠ [] := by
    intro hnil
    obtain ⟨c, hc, hspace⟩ := hx
    have hmem := mem_of_dropWhile hc hspace
    rw [hnil] at hmem
    cases hmem
  obtain ⟨c, y, hy⟩ := List.exists_cons_of_ne_nil hne
  have hdrop : (x ++ w).dropWhile Fmt.isSpace = c :: (y ++ w) := by
    rw [List.dropWhile_append, hy]
    rfl
  have htail : Fmt.digitsValue 0 (y ++ w) = Fmt.digitsValue 0 y := digitsValue_append hw
  have hwhole : Fmt.digitsValue 0 (c :: (y ++ w)) = Fmt.digitsValue 0 (c :: y) :=
    digitsValue_append (x := c :: y) hw
  simp only [Fmt.atoi, hdrop, hy, List.head?_cons, List.tail_cons, htail, hwhole]

theorem atoi_space {x : List Byte} (hx : ∀ c ∈ x, Fmt.isSpace c = true) :
  Fmt.atoi x = 0
  := by
  have hnil : x.dropWhile Fmt.isSpace = [] := by
    rw [List.dropWhile_eq_nil_iff]
    exact hx
  rw [Fmt.atoi, hnil]
  rfl

/-- A number that is read behind a command is that of its own characters exactly if these are not
only white space or the number is `0`. -/
theorem atoi_append_iff {x : List Byte} (hw : ∀ c ∈ w.head?, Fmt.isDigit c = false) :
  Fmt.atoi (x ++ w) = Fmt.atoi x ↔ (∃ c ∈ x, Fmt.isSpace c = false) ∨ Fmt.atoi (x ++ w) = 0
  := by
  by_cases hx : ∃ c ∈ x, Fmt.isSpace c = false
  · exact iff_of_true (atoi_append hw hx) (.inl hx)
  · have hspace : ∀ c ∈ x, Fmt.isSpace c = true := by
      intro c hc
      by_contra hspace
      exact hx ⟨c, hc, eq_false_of_ne_true hspace⟩
    rw [or_iff_right hx, atoi_space hspace]

/-! #### What is asked for -/

theorem isSome_uartCmd {type : Byte} {arg : ℕ} :
  (uartCmd type arg).isSome = true ↔ type ∈ [(0x42 : Byte), 0x62, 0x4c, 0x6c]
  := by
  rw [uartCmd]
  split_ifs with h₁ h₂
  · refine iff_of_true rfl ?_
    rcases h₁ with rfl | rfl
    · decide
    · decide
  · refine iff_of_true rfl ?_
    rcases h₂ with rfl | rfl
    · decide
    · decide
  · refine iff_of_false nofun ?_
    simp only [List.mem_cons, List.not_mem_nil, or_false]
    tauto

theorem toSigned_toUnsigned {x : ℤ} (hx : -2 ^ 31 ≤ x ∧ x ≤ 2 ^ 31 - 1) :
  Word32.toSigned (Fmt.toUnsigned x) = x
  := by
  rw [Word32.toSigned, Fmt.toUnsigned]
  split_ifs
  · omega
  · omega

/-- Different numbers are different arguments. -/
theorem uartCmd_inj {type : Byte} {x y : ℤ} (h : type ∈ [(0x42 : Byte), 0x62, 0x4c, 0x6c])
    (hx : -2 ^ 31 ≤ x ∧ x ≤ 2 ^ 31 - 1) (hy : -2 ^ 31 ≤ y ∧ y ≤ 2 ^ 31 - 1) :
  uartCmd type (Fmt.toUnsigned x) = uartCmd type (Fmt.toUnsigned y) ↔ x = y
  := by
  have hsome : (uartCmd type (Fmt.toUnsigned x)).isSome = true := isSome_uartCmd.mpr h
  rw [← toUnsigned_inj hx hy]
  constructor
  · intro heq
    rw [uartCmd] at hsome
    rw [uartCmd, uartCmd, toSigned_toUnsigned hx, toSigned_toUnsigned hy] at heq
    split_ifs at heq hsome
    · exact UartCmd.baud.inj (Option.some.inj heq)
    · rw [UartCmd.bits.inj (Option.some.inj heq)]
    · cases hsome
  · intro heq
    rw [heq]

theorem isSome_asked_iff {t : List Byte} :
  (asked t).isSome = true ↔ Known t
  := by
  cases t with
  | nil => exact iff_of_false nofun nofun
  | cons c t =>
      rw [asked, isSome_uartCmd, Known]
      simp only [List.head?_cons, Option.mem_some_iff, exists_eq_left']

/-- A command, its own characters and what follows them -/
theorem exists_of_mem_cmdsOf {t : List Byte} (ht : t ∈ cmdsOf s) :
  ∃ c x w, t = c :: (x ++ w) ∧ ownText t = c :: x ∧ ∀ b ∈ w.head?, Fmt.isDigit b = false
  := by
  obtain ⟨c, r, rfl, hc⟩ := Words.exists_of_mem_words ht
  refine ⟨c, r.takeWhile (Words.inWord isBlank endsLine),
    r.dropWhile (Words.inWord isBlank endsLine), ?_, ?_, ?_⟩
  · rw [List.takeWhile_append_dropWhile]
  · exact List.takeWhile_cons_of_pos hc
  · intro b hb
    obtain ⟨w, hw⟩ := List.head?_eq_some_iff.mp hb
    have hb := not_of_dropWhile hw
    simp only [Words.inWord, isBlank, endsLine, Bool.and_eq_false_iff, Bool.not_eq_false',
      Bool.or_eq_true, decide_eq_true_eq] at hb
    rcases hb with (rfl | rfl) | rfl | rfl
    · rfl
    · rfl
    · rfl
    · rfl

/-- A command asks for what is written exactly if it is not known or has its argument. -/
theorem asked_ownText_iff {t : List Byte} (ht : t ∈ cmdsOf s) :
  ((asked t).isSome = (asked (ownText t)).isSome)
    ∧ (asked t = asked (ownText t) ↔ (Known t → HasArgument t))
  := by
  obtain ⟨c, x, w, rfl, hown, hw⟩ := exists_of_mem_cmdsOf ht
  have hargument : HasArgument (c :: (x ++ w)) ↔ Fmt.atoi (x ++ w) = Fmt.atoi x := by
    rw [HasArgument, hown, atoi_append_iff hw]
    rfl
  have hknown : Known (c :: (x ++ w)) ↔ c ∈ [(0x42 : Byte), 0x62, 0x4c, 0x6c] := by
    rw [← isSome_asked_iff, asked, isSome_uartCmd]
  rw [hown, asked, asked, hargument, hknown]
  constructor
  · rw [Bool.eq_iff_iff, isSome_uartCmd, isSome_uartCmd]
  · by_cases hc : c ∈ [(0x42 : Byte), 0x62, 0x4c, 0x6c]
    · rw [uartCmd_inj hc (atoi_bounds _) (atoi_bounds _)]
      exact ⟨fun h _ => h, fun h => h hc⟩
    · refine iff_of_true ?_ fun h => absurd h hc
      have hnone {arg : ℕ} : uartCmd c arg = none := by
        rw [← Option.not_isSome_iff_eq_none, isSome_uartCmd]
        exact hc
      rw [hnone, hnone]

/-- Two ways to read the same elements -/
theorem filterMap_eq_iff {α β : Type} {f g : α → Option β} {l : List α}
    (h : ∀ t ∈ l, (f t).isSome = (g t).isSome) :
  l.filterMap f = l.filterMap g ↔ ∀ t ∈ l, f t = g t
  := by
  constructor
  · intro heq
    induction l with
    | nil => nofun
    | cons a l ih =>
        rw [List.forall_mem_cons] at h ⊢
        cases hf : f a with
        | none =>
            have hg : g a = none := by
              rw [← Option.not_isSome_iff_eq_none, ← h.1, hf]
              nofun
            rw [List.filterMap_cons_none hf, List.filterMap_cons_none hg] at heq
            exact ⟨hg.symm, ih h.2 heq⟩
        | some b =>
            obtain ⟨b', hg⟩ := Option.isSome_iff_exists.mp (h.1.symm.trans (by rw [hf]; rfl))
            rw [List.filterMap_cons_some hf, List.filterMap_cons_some hg] at heq
            obtain ⟨rfl, htail⟩ := List.cons.inj heq
            exact ⟨hg.symm, ih h.2 htail⟩
  · exact List.filterMap_congr

theorem length_filterMap_eq {α β : Type} {f g : α → Option β} {l : List α}
    (h : ∀ t ∈ l, (f t).isSome = (g t).isSome) :
  (l.filterMap f).length = (l.filterMap g).length
  := by
  rw [List.length_filterMap_eq_countP, List.length_filterMap_eq_countP]
  apply List.countP_congr
  intro t ht
  rw [h t ht]

/-- What is asked for by the first two commands is what all of them ask for exactly if they have
their arguments and the others are not known. -/
theorem asked_eq_written_iff (s : List Byte) :
  ((cmdsOf s).take 2).filterMap asked = written s ↔ ArgumentsWritten s
  := by
  have hmem : ∀ t ∈ (cmdsOf s).take 2, t ∈ cmdsOf s := fun t => List.mem_of_mem_take
  have hsome : ∀ t ∈ (cmdsOf s).take 2, (asked t).isSome = (asked (ownText t)).isSome :=
    fun t ht => (asked_ownText_iff (hmem t ht)).1
  have hsplit : written s = ((cmdsOf s).take 2).filterMap (fun t => asked (ownText t)) ++
      ((cmdsOf s).drop 2).filterMap (fun t => asked (ownText t)) := by
    rw [← List.filterMap_append, List.take_append_drop, written]
  have hothers : ((cmdsOf s).drop 2).filterMap (fun t => asked (ownText t)) = [] ↔
      ∀ t ∈ (cmdsOf s).drop 2, ¬ Known t := by
    rw [List.filterMap_eq_nil_iff]
    apply forall₂_congr
    intro t ht
    rw [← isSome_asked_iff, (asked_ownText_iff (List.mem_of_mem_drop ht)).1,
      Option.not_isSome_iff_eq_none]
  have hfirst : ((cmdsOf s).take 2).filterMap asked =
      ((cmdsOf s).take 2).filterMap (fun t => asked (ownText t)) ↔
      ∀ t ∈ (cmdsOf s).take 2, Known t → HasArgument t := by
    rw [filterMap_eq_iff hsome]
    apply forall₂_congr
    intro t ht
    exact (asked_ownText_iff (hmem t ht)).2
  rw [hsplit]
  constructor
  · intro heq
    have hlen := congrArg List.length heq
    rw [List.length_append, length_filterMap_eq hsome, Nat.left_eq_add,
      List.length_eq_zero_iff] at hlen
    rw [hlen, List.append_nil] at heq
    exact ⟨hfirst.mp heq, hothers.mp hlen⟩
  · rintro ⟨h₁, h₂⟩
    rw [hothers.mpr h₂, List.append_nil]
    exact hfirst.mpr h₁

/-! #### The hardware -/

/-- The loop asks for what the commands ask for. -/
theorem applyCmds_eq {σ : Type} (hw : UartHW σ) {cmds : List (List Byte)} (h : [] ∉ cmds) :
  applyCmds hw cmds = askAll hw (cmds.filterMap asked)
  := by
  induction cmds with
  | nil => rfl
  | cons t cmds ih =>
      rw [List.mem_cons, not_or] at h
      cases t with
      | nil => exact absurd rfl h.1
      | cons c t =>
          rw [applyCmds]
          cases hx : uartCmd c (Fmt.toUnsigned (Fmt.atoi t)) with
          | none =>
              have hasked : asked (c :: t) = none := hx
              rw [List.filterMap_cons_none hasked]
              exact ih h.2
          | some x =>
              have hasked : asked (c :: t) = some x := hx
              rw [List.filterMap_cons_some hasked, askAll, ← ih h.2]

/-- Hardware that keeps a list of what it was asked for -/
def logged : UartHW (List UartCmd) where
  baud arg := do
    modify fun l => l ++ [.baud arg]
    return 0
  bits arg := do
    modify fun l => l ++ [.bits arg]
    return 0

theorem askAll_logged (l : List UartCmd) (s : List UartCmd) :
  askAll logged l s = .done 0 (s ++ l)
  := by
  induction l generalizing s with
  | nil => rw [List.append_nil, askAll, pure_apply]
  | cons x l ih =>
      have hcall : logged.call x s = .done 0 (s ++ [x]) := by
        cases x with
        | baud arg => rfl
        | bits arg => rfl
      rw [askAll, bind_done hcall, if_neg (by decide), ih, List.append_assoc]
      rfl

/-- Requests that have the same effects on any hardware are the same. -/
theorem askAll_inj {l l' : List UartCmd} :
  (∀ (σ : Type) (hw : UartHW σ), askAll hw l = askAll hw l') ↔ l = l'
  := by
  constructor
  · intro h
    have hlogged := congrFun (h _ logged) []
    rw [askAll_logged, askAll_logged] at hlogged
    cases hlogged
    rfl
  · rintro rfl σ hw
    rfl

/-- If the commands are found, those that are written are applied exactly if they have their
arguments and the others are not known. -/
theorem appliesWritten_iff (h : ParsesInside 2 s) :
  AppliesWritten s ↔ ArgumentsWritten s
  := by
  have hne : [] ∉ (cmdsOf s).take 2 := by
    intro hmem
    obtain ⟨c, x, w, hnil, -⟩ := exists_of_mem_cmdsOf (List.mem_of_mem_take hmem)
    cases hnil
  rw [← asked_eq_written_iff, ← askAll_inj]
  apply forall₂_congr
  intro σ hw
  rw [sysuartctl, h]
  dsimp only
  rw [applyCmds_eq hw hne]

/--
For any text before the zero and any number the commands of the line are found inside the text
exactly if they are delimited, and `sysuartctl` finds and applies those that are written exactly if
they are delimited and have their arguments.
-/
theorem uartCommands_iff (text : List Byte) :
  (∀ n, ParsesInside n (text ++ [0]) ↔ Delimited n (text ++ [0]))
    ∧ (ParsesInside 2 (text ++ [0]) ∧ AppliesWritten (text ++ [0])
      ↔ Delimited 2 (text ++ [0]) ∧ ArgumentsWritten (text ++ [0]))
  := by
  have hzero : (0 : Byte) ∈ text ++ [0] := List.mem_append_right _ List.mem_cons_self
  have hparses : ∀ n, ParsesInside n (text ++ [0]) ↔ Delimited n (text ++ [0]) :=
    fun n => parsesInside_iff_delimited hzero
  refine ⟨hparses, ?_⟩
  rw [← hparses]
  exact and_congr_right appliesWritten_iff

/-- For `"l8"`, which `enableUart` passes, the parser reads behind the text. -/
theorem not_uartCommands :
  ¬ ∀ (text : List Byte) (n : ℕ), 0 ∉ text →
    ParsesInside n (text ++ [0]) ∧ AppliesWritten (text ++ [0])
  := by
  intro hclaim
  have hparses := (hclaim [0x6c, 0x38] 2 (by decide)).1
  have hnone : parseCmds 2 ([0x6c, 0x38] ++ [0]) = none := rfl
  rw [ParsesInside, hnone] at hparses
  cases hparses

/-- The second of two lines is taken to belong to the first one. -/
example : parseCmds 1 [0x6c, 0x38, 0x0a, 0x62, 0x39, 0x20, 0] =
    some [[0x6c, 0x38, 0x0a, 0x62, 0x39, 0x20, 0]] := rfl

end Dev
