import Manos.Lib.Transducer
import Manos.Torgo.Chain

/-!
# What the parser computes

The parser without its input: a machine that reads the text byte by byte, `scanner`, and emits
the list of words of a command at each operator.  It has no states for an operator that is
about to be read and for a command that is complete, since the parser rests in neither.
The parser is connected to it by `parseInputParser_returns`.
-/

namespace Torgo

open Exec

/-- Where in a command the scanner is. -/
inductive Mode where
  | ready
  | word
  | quotation
  | escapeInQuot
  | escapeInWord
deriving DecidableEq

/-- The words of the command read so far, the last one first, and the part read of a word. -/
structure Scan where
  mode : Mode
  token : List Byte
  tokens : List (List Byte)
deriving DecidableEq

namespace Scan

/-- At the start of a command. -/
def start : Scan := ⟨.ready, [], []⟩

/-- The word that was read ends here; there is none if nothing was read. -/
def pushed (s : Scan) : Scan :=
  if s.token = [] then s
  else { s with token := [], tokens := s.token :: s.tokens }

/-- A character is added to the word that is read. -/
def append (s : Scan) (c : Byte) : Scan :=
  { s with token := s.token ++ [c] }

/-- The same words in another mode. -/
def enter (s : Scan) (m : Mode) : Scan :=
  { s with mode := m }

/-- A byte outside quotations. -/
def inWord (s : Scan) (c : Byte) : Scan × List (List (List Byte)) :=
  if c = quotMark then (s.enter .quotation, [])
  else if c = backslash then (s.enter .escapeInWord, [])
  else if isBlank c then (s.pushed.enter .ready, [])
  else if isOperator c then (.start, [s.pushed.tokens.reverse])
  else ((s.append c).enter .word, [])

/-- A byte in a quotation. -/
def inQuotation (s : Scan) (c : Byte) : Scan :=
  if c = backslash then s.enter .escapeInQuot
  else if c = quotMark then s.enter .word
  else s.append c

/-- A byte is read. -/
def read (s : Scan) (c : Byte) : Scan × List (List (List Byte)) :=
  match s.mode with
  | .ready => s.pushed.inWord c
  | .word => s.inWord c
  | .quotation => (s.inQuotation c, [])
  | .escapeInQuot => ((s.append (escaped c)).enter .quotation, [])
  | .escapeInWord => ((s.append (escaped c)).enter .word, [])

end Scan

/-- The machine that reads commands. -/
def scanner : Transducer Scan Byte (List (List Byte)) := ⟨Scan.read⟩

/-! ### The parser and the scanner -/

variable {p q : Parser} {s : Scan} {c : Byte} {bs rest : List Byte}

/-- The state of the parser in which the scanner is in a mode. -/
def Mode.state : Mode → ParserState
  | .ready => .ready
  | .word => .word
  | .quotation => .quotation
  | .escapeInQuot => .escapeInQuot
  | .escapeInWord => .escapeInWord

/-- The parser has the words that the scanner has. -/
structure Holds (p : Parser) (s : Scan) : Prop where
  tokens : p.tokens = s.tokens
  token : p.token.text = s.token
  nonzero : ∀ t ∈ s.tokens, 0 ∉ t

/-- The parser is where the scanner is. -/
structure Reads (p : Parser) (s : Scan) : Prop extends Holds p s where
  state : p.state = s.mode.state

theorem Holds.same (h : Holds p s) (hs : q.tokens = p.tokens) (ht : q.token = p.token) :
  Holds q s
  := ⟨hs.trans h.tokens, ht ▸ h.token, h.nonzero⟩

theorem Holds.enter (h : Holds p s) (m : Mode) :
  Holds p (s.enter m)
  := ⟨h.tokens, h.token, h.nonzero⟩

theorem Holds.append (h : Holds p s) (hc : c ≠ 0) :
  Holds { p with token := appendCharBuf p.token c } (s.append c)
  := by
  refine ⟨h.tokens, ?_, h.nonzero⟩
  rw [CharBuf.text_append hc, h.token]
  rfl

/-- The parser pushes the token. -/
theorem Holds.pushToken (h : Holds p s) (hp : Pending p bs) :
  Returns p pushToken fun _ q => Holds q s.pushed ∧ q.state = p.state ∧ Pending q bs
  := by
  refine .get ?_
  by_cases he : s.token = []
  · rw [when_neg (not_not_intro (CharBuf.isEmpty_iff.mpr (h.token.trans he))), Scan.pushed,
      if_pos he]
    exact .pure ⟨h, rfl, hp⟩
  · have hne : isEmptyCharBuf p.token ≠ true := by
      rw [Ne, CharBuf.isEmpty_iff, h.token]
      exact he
    rw [when_pos hne, Scan.pushed, if_neg he]
    refine ⟨(), _, rfl, ⟨?_, CharBuf.text_clear, ?_⟩, rfl, hp.congr rfl rfl rfl rfl rfl⟩
    · change mkString (fromCharBuf p.token) :: p.tokens = s.token :: s.tokens
      rw [CharBuf.mkString_text, h.token, h.tokens]
    · intro t ht
      rcases List.mem_cons.mp ht with rfl | ht
      · rw [← h.token]
        exact p.token.nonzero
      · exact h.nonzero t ht

/-- No escape stands for a zero. -/
theorem escaped_ne_zero (hc : c ≠ 0) :
  escaped c ≠ 0
  := by
  unfold escaped
  repeat' split
  all_goals first | exact hc | decide

/-! ### Turns of the loop -/

/-- The parser reads a byte and enters a state. -/
theorem Holds.advanceTo (h : Holds p s) (hp : Pending p (c :: bs)) (hb : 0 ∉ c :: bs)
    (m : ParserState) :
  Returns p (advance >>= fun _ => setState m) fun _ q => Holds q s ∧ q.state = m ∧ Pending q bs
  := by
  refine .bind (hp.advance hb) ?_
  rintro - q ⟨hq, hsame⟩
  exact ⟨(), _, rfl, h.same hsame.1 hsame.2.1, rfl, hq.congr rfl rfl rfl rfl rfl⟩

/-- The parser adds a character to the token and reads a byte. -/
theorem Holds.appendAdvance {d : Byte} (h : Holds p s) (hp : Pending p (c :: bs))
    (hb : 0 ∉ c :: bs) (hd : d ≠ 0) :
  Returns p (appendToken d >>= fun _ => advance) fun _ q =>
    Holds q (s.append d) ∧ q.state = p.state ∧ Pending q bs
  := by
  have hp' : Pending { p with token := appendCharBuf p.token d } (c :: bs) :=
    hp.congr rfl rfl rfl rfl rfl
  refine .step rfl ((hp'.advance hb).mono ?_)
  rintro - q ⟨hq, hsame⟩
  exact ⟨(h.append hd).same hsame.1 hsame.2.1, hsame.2.2, hq⟩

/-- The turn that reads the operator after a command. -/
theorem Holds.operatorTurn (h : Holds p s) (hs : p.state = .operator) (hp : Pending p (c :: bs))
    (hb : 0 ∉ c :: bs) :
  Returns p parseTurn fun _ q => Holds q s ∧ q.state = .complete ∧ Pending q bs
  := by
  refine .get ?_
  rw [hs]
  exact h.advanceTo hp hb .complete

/-- Turns of the loop of `parseInputParser` lead from `p` to `q`. -/
def Turns (p q : Parser) : Prop :=
  ∃ k, ∀ n, parseLoop (n + k) p = parseLoop n q

theorem Turns.trans {r : Parser} (h : Turns p q) (h' : Turns q r) :
  Turns p r
  := by
  obtain ⟨k, hk⟩ := h
  obtain ⟨m, hm⟩ := h'
  refine ⟨m + k, fun n => ?_⟩
  rw [← Nat.add_assoc, hk, hm]

/-- A turn of the loop. -/
theorem turn {Q : Unit → Parser → Prop} (hp : Pending p (c :: bs)) (hb : 0 ∉ c :: bs)
    (hs : p.state ≠ .complete) (h : Returns p parseTurn Q) :
  ∃ q, Turns p q ∧ Q () q
  := by
  obtain ⟨_, q, hturn, hq⟩ := h
  have hc : c ≠ 0 := fun h₀ => hb (h₀ ▸ List.mem_cons_self)
  refine ⟨q, ⟨1, fun n => ?_⟩, hq⟩
  rw [parseLoop, bind_done hp.peek, bind_done (get_apply p), if_pos ⟨hc, hs⟩, bind_done hturn]

/-- What the parser has after a byte at which the scanner goes to a state and emits
something. -/
inductive Goes (q : Parser) : Scan × List (List (List Byte)) → Prop
  | reads {s : Scan} (h : Holds q s) (hs : q.state = s.mode.state) : Goes q (s, [])
  | completes {s : Scan} (h : Holds q s) (hs : q.state = .complete) :
      Goes q (.start, [s.tokens.reverse])

/-- A byte of a word outside quotations. -/
theorem Holds.word (h : Holds p s) (hs : p.state = .word) (hp : Pending p (c :: bs))
    (hb : 0 ∉ c :: bs) (hblank : isBlank c = false) (hop : isOperator c = false) :
  ∃ q, Turns p q ∧ Pending q bs ∧ Goes q (s.inWord c)
  := by
  have hc : c ≠ 0 := fun h₀ => hb (h₀ ▸ List.mem_cons_self)
  have hturn : Returns p parseTurn fun _ q => Pending q bs ∧ Goes q (s.inWord c) := by
    refine .get ?_
    rw [hs]
    refine .step hp.peek ?_
    rw [Scan.inWord, hblank, hop]
    split
    · refine (h.advanceTo hp hb .quotation).mono ?_
      rintro - q ⟨hq, hs', hp'⟩
      exact ⟨hp', .reads (hq.enter .quotation) hs'⟩
    · split
      · refine (h.advanceTo hp hb .escapeInWord).mono ?_
        rintro - q ⟨hq, hs', hp'⟩
        exact ⟨hp', .reads (hq.enter .escapeInWord) hs'⟩
      · refine (h.appendAdvance hp hb hc).mono ?_
        rintro - q ⟨hq, hs', hp'⟩
        exact ⟨hp', .reads (hq.enter .word) (hs'.trans hs)⟩
  exact turn hp hb (by rw [hs]; nofun) hturn

theorem not_quotMark (hc : isBlank c = true ∨ isOperator c = true) :
  c ≠ quotMark
  := by
  rintro rfl
  exact absurd hc (by decide)

theorem not_backslash (hc : isBlank c = true ∨ isOperator c = true) :
  c ≠ backslash
  := by
  rintro rfl
  exact absurd hc (by decide)

/-- A byte after which a word has ended. -/
theorem Holds.ends (h : Holds p s) (hs : p.state = .ready) (hp : Pending p (c :: bs))
    (hb : 0 ∉ c :: bs) (hc : isBlank c = true ∨ isOperator c = true) :
  ∃ q, Turns p q ∧ Pending q bs ∧ Goes q (s.inWord c)
  := by
  have hne : p.state ≠ .complete := by
    rw [hs]
    nofun
  rw [Scan.inWord, if_neg (not_quotMark hc), if_neg (not_backslash hc)]
  by_cases hblank : isBlank c = true
  · have hturn : Returns p parseTurn fun _ q => Pending q bs ∧ Goes q (s.pushed.enter .ready, []) := by
      refine .get ?_
      rw [hs]
      refine (h.pushToken hp).bind ?_
      rintro - q ⟨hq, hs', hp'⟩
      refine .step hp'.peek ?_
      rw [if_pos hblank]
      refine (hp'.advance hb).mono ?_
      rintro - q' ⟨hp'', hsame⟩
      refine ⟨hp'', .reads ((hq.same hsame.1 hsame.2.1).enter .ready) ?_⟩
      exact hsame.2.2.trans (hs'.trans hs)
    rw [if_pos hblank]
    exact turn hp hb hne hturn
  · have hop : isOperator c = true := hc.resolve_left hblank
    have hturn : Returns p parseTurn fun _ q =>
        Holds q s.pushed ∧ q.state = .operator ∧ Pending q (c :: bs) := by
      refine .get ?_
      rw [hs]
      refine (h.pushToken hp).bind ?_
      rintro - q ⟨hq, hs', hp'⟩
      refine .step hp'.peek ?_
      rw [if_neg hblank, if_pos hop]
      exact ⟨(), _, rfl, hq.same rfl rfl, rfl, hp'.congr rfl rfl rfl rfl rfl⟩
    obtain ⟨q, hq, hhold, hs', hp'⟩ := turn hp hb hne hturn
    obtain ⟨q', hq', hhold', hs'', hp''⟩ :=
      turn hp' hb (by rw [hs']; nofun) (hhold.operatorTurn hs' hp' hb)
    rw [if_neg hblank, if_pos hop]
    exact ⟨q', hq.trans hq', hp'', .completes hhold' hs''⟩

/-- Nothing is left to push after a push. -/
theorem Scan.pushed_pushed (s : Scan) :
  s.pushed.pushed = s.pushed
  := by
  have h : s.pushed.token = [] := by
    unfold pushed
    split
    · assumption
    · rfl
  conv_lhs => rw [pushed, if_pos h]

/-- A byte between words. -/
theorem Holds.ready (h : Holds p s) (hs : p.state = .ready) (hp : Pending p (c :: bs))
    (hb : 0 ∉ c :: bs) :
  ∃ q, Turns p q ∧ Pending q bs ∧ Goes q (s.pushed.inWord c)
  := by
  by_cases hends : isBlank c = true ∨ isOperator c = true
  · have hsame : s.pushed.inWord c = s.inWord c := by
      rw [Scan.inWord, Scan.inWord, Scan.pushed_pushed, if_neg (not_quotMark hends),
        if_neg (not_backslash hends), if_neg (not_quotMark hends), if_neg (not_backslash hends)]
      split
      · rfl
      · rw [if_pos (hends.resolve_left ‹_›), if_pos (hends.resolve_left ‹_›)]
    rw [hsame]
    exact h.ends hs hp hb hends
  · rw [not_or, Bool.not_eq_true, Bool.not_eq_true] at hends
    have hturn : Returns p parseTurn fun _ q =>
        Holds q s.pushed ∧ q.state = .word ∧ Pending q (c :: bs) := by
      refine .get ?_
      rw [hs]
      refine (h.pushToken hp).bind ?_
      rintro - q ⟨hq, hs', hp'⟩
      refine .step hp'.peek ?_
      rw [hends.1, hends.2]
      exact ⟨(), _, rfl, hq.same rfl rfl, rfl, hp'.congr rfl rfl rfl rfl rfl⟩
    obtain ⟨q, hq, hh, hs', hp'⟩ := turn hp hb (by rw [hs]; nofun) hturn
    obtain ⟨q', hq', hgoes⟩ := hh.word hs' hp' hb hends.1 hends.2
    exact ⟨q', hq.trans hq', hgoes⟩

/-- A byte inside a quotation. -/
theorem Holds.quotation (h : Holds p s) (hs : p.state = .quotation) (hm : s.mode = .quotation)
    (hp : Pending p (c :: bs)) (hb : 0 ∉ c :: bs) :
  ∃ q, Turns p q ∧ Pending q bs ∧ Goes q (s.inQuotation c, [])
  := by
  have hc : c ≠ 0 := fun h₀ => hb (h₀ ▸ List.mem_cons_self)
  have hturn : Returns p parseTurn fun _ q => Pending q bs ∧ Goes q (s.inQuotation c, []) := by
    refine .get ?_
    rw [hs]
    refine .step hp.peek ?_
    rw [Scan.inQuotation]
    split
    · refine (h.advanceTo hp hb .escapeInQuot).mono ?_
      rintro - q ⟨hq, hs', hp'⟩
      exact ⟨hp', .reads (hq.enter .escapeInQuot) hs'⟩
    · split
      · refine (h.advanceTo hp hb .word).mono ?_
        rintro - q ⟨hq, hs', hp'⟩
        exact ⟨hp', .reads (hq.enter .word) hs'⟩
      · refine (h.appendAdvance hp hb hc).mono ?_
        rintro - q ⟨hq, hs', hp'⟩
        refine ⟨hp', .reads hq (hs'.trans (hs.trans ?_))⟩
        rw [Scan.append, hm, Mode.state]
  exact turn hp hb (by rw [hs]; nofun) hturn

/-- A byte after a backslash. -/
theorem Holds.escape {m : Mode} (h : Holds p s)
    (hturn : parseTurn p = (appendToken (escaped c) >>= fun _ => advance >>= fun _ =>
      setState m.state) p) (hs : p.state ≠ .complete)
    (hp : Pending p (c :: bs)) (hb : 0 ∉ c :: bs) :
  ∃ q, Turns p q ∧ Pending q bs ∧ Goes q ((s.append (escaped c)).enter m, [])
  := by
  have hc : c ≠ 0 := fun h₀ => hb (h₀ ▸ List.mem_cons_self)
  have hp' : Pending { p with token := appendCharBuf p.token (escaped c) } (c :: bs) :=
    hp.congr rfl rfl rfl rfl rfl
  have h' := h.append (escaped_ne_zero hc)
  have hreturns : Returns p (appendToken (escaped c) >>= fun _ => advance >>= fun _ =>
      setState m.state) fun _ q => Pending q bs ∧ Goes q ((s.append (escaped c)).enter m, []) := by
    refine .step rfl ((h'.advanceTo hp' hb m.state).mono ?_)
    rintro - q ⟨hq, hs', hp''⟩
    exact ⟨hp'', .reads (hq.enter m) hs'⟩
  rw [Returns, ← hturn] at hreturns
  exact turn hp hb hs hreturns

/-- The parser reads one byte as the scanner does. -/
theorem Reads.byte (h : Reads p s) (hp : Pending p (c :: bs)) (hb : 0 ∉ c :: bs) :
  ∃ q, Turns p q ∧ Pending q bs ∧ Goes q (s.read c)
  := by
  have hh := h.toHolds
  have hs := h.state
  rw [Scan.read]
  cases hm : s.mode with
  | ready =>
      rw [hm] at hs
      exact hh.ready hs hp hb
  | word =>
      rw [hm] at hs
      by_cases hends : isBlank c = true ∨ isOperator c = true
      · have hturn : Returns p parseTurn fun _ q =>
            Holds q s ∧ q.state = .ready ∧ Pending q (c :: bs) := by
          refine .get ?_
          rw [hs]
          refine .step hp.peek ?_
          rw [if_neg (not_quotMark hends), if_neg (not_backslash hends), if_pos hends]
          exact ⟨(), _, rfl, hh.same rfl rfl, rfl, hp.congr rfl rfl rfl rfl rfl⟩
        obtain ⟨q, hq, hh', hs', hp'⟩ := turn hp hb (by rw [hs]; nofun) hturn
        obtain ⟨q', hq', hgoes⟩ := hh'.ends hs' hp' hb hends
        exact ⟨q', hq.trans hq', hgoes⟩
      · rw [not_or, Bool.not_eq_true, Bool.not_eq_true] at hends
        exact hh.word hs hp hb hends.1 hends.2
  | quotation =>
      rw [hm] at hs
      exact hh.quotation hs hm hp hb
  | escapeInQuot =>
      rw [hm] at hs
      refine hh.escape ?_ (by rw [hs]; nofun) hp hb
      rw [parseTurn, bind_done (get_apply p), hs]
      exact bind_done hp.peek
  | escapeInWord =>
      rw [hm] at hs
      refine hh.escape ?_ (by rw [hs]; nofun) hp hb
      rw [parseTurn, bind_done (get_apply p), hs]
      exact bind_done hp.peek

end Torgo
