import Manos.Torgo.Cutting

/-!
# Quoted words

A list of words is written for the parser as quotations, in which quotation marks and
backslashes have a backslash before them, with blanks between the quotations.  The parser
gives the words back.
-/

namespace Torgo

open Exec

variable {s : Scan} {b e : Byte} {w text sep : List Byte} {ws toks : List (List Byte)}

/-- A byte of a word, as it is written in a quotation. -/
def quotedByte (b : Byte) : List Byte :=
  if b = quotMark ∨ b = backslash then [backslash, b] else [b]

/-- A word as a quotation. -/
def quoted (w : List Byte) : List Byte :=
  quotMark :: w.flatMap quotedByte ++ [quotMark]

/-- The words `ws` are written as `text`: quotations with runs of blanks between them. -/
inductive Sentence : List (List Byte) → List Byte → Prop
  | nil : Sentence [] []
  | one (w : List Byte) : Sentence [w] (quoted w)
  | cons {w sep text : List Byte} {ws : List (List Byte)} (hne : sep ≠ [])
      (hsep : ∀ b ∈ sep, isBlank b = true) (hws : ws ≠ []) (h : Sentence ws text) :
      Sentence (w :: ws) (quoted w ++ sep ++ text)

/-! ### Quotations -/

/-- A byte of a quoted word is read. -/
theorem run_quotedByte (hm : s.mode = .quotation) :
  scanner.run s (quotedByte b) = (s.append b, [])
  := by
  have hback : s.read backslash = (s.enter .escapeInQuot, []) := by
    rw [Scan.read, hm]
    rfl
  unfold quotedByte
  split
  · rename_i hb
    have hescaped : escaped b = b := by
      rcases hb with rfl | rfl
      · decide
      · decide
    rw [Transducer.run_cons_silent hback, Transducer.run_singleton]
    change ((Scan.append _ (escaped b)).enter .quotation, []) = _
    rw [hescaped, Scan.append, Scan.append, Scan.enter, Scan.enter, ← hm]
  · rename_i hb
    rw [not_or] at hb
    rw [Transducer.run_singleton]
    change s.read b = _
    rw [Scan.read, hm, Scan.inQuotation, if_neg hb.2, if_neg hb.1]

/-- The bytes of a quoted word are read. -/
theorem run_quotedBytes (hm : s.mode = .quotation) :
  scanner.run s (w.flatMap quotedByte) = ({ s with token := s.token ++ w }, [])
  := by
  induction w generalizing s with
  | nil => rw [List.flatMap_nil, Transducer.run_nil, List.append_nil]
  | cons b w ih =>
      have hm' : (s.append b).mode = .quotation := hm
      rw [List.flatMap_cons, Transducer.run_append_silent (run_quotedByte hm), ih hm', Scan.append,
        List.append_assoc, List.singleton_append]

/-- A quotation is read at the start of a word. -/
theorem run_quoted :
  scanner.run ⟨.ready, [], toks⟩ (quoted w) = (⟨.word, w, toks⟩, [])
  := by
  have hopen : scanner.step ⟨.ready, [], toks⟩ quotMark = (⟨.quotation, [], toks⟩, []) := rfl
  rw [quoted, List.cons_append, Transducer.run_cons_silent hopen,
    Transducer.run_append_silent (run_quotedBytes rfl), Transducer.run_singleton]
  rfl

/-! ### Words and blanks -/

theorem read_blank {m : Mode} (hm : m = .ready ∨ m = .word) (hb : isBlank b = true) :
  scanner.step ⟨m, w, toks⟩ b = (Scan.enter (Scan.pushed ⟨m, w, toks⟩) .ready, [])
  := by
  have hin : ∀ s : Scan, s.inWord b = (s.pushed.enter .ready, []) := by
    intro s
    rw [Scan.inWord, if_neg (not_quotMark (.inl hb)), if_neg (not_backslash (.inl hb)), if_pos hb]
  rcases hm with rfl | rfl
  · change Scan.inWord _ b = _
    rw [hin, Scan.pushed_pushed]
  · exact hin _

/-- Blanks between words are read. -/
theorem run_blanks (hsep : ∀ b ∈ sep, isBlank b = true) :
  scanner.run ⟨.ready, [], toks⟩ sep = (⟨.ready, [], toks⟩, [])
  := by
  induction sep with
  | nil => rfl
  | cons b sep ih =>
      have hb : scanner.step ⟨.ready, [], toks⟩ b = _ :=
        read_blank (.inl rfl) (hsep b List.mem_cons_self)
      rw [Transducer.run_cons_silent hb]
      exact ih fun b' hb' => hsep b' (List.mem_cons_of_mem _ hb')

/-- Blanks after a word are read. -/
theorem run_separator (hw : w ≠ []) (hne : sep ≠ []) (hsep : ∀ b ∈ sep, isBlank b = true) :
  scanner.run ⟨.word, w, toks⟩ sep = (⟨.ready, [], w :: toks⟩, [])
  := by
  cases sep with
  | nil => exact absurd rfl hne
  | cons b sep =>
      have hb : scanner.step ⟨.word, w, toks⟩ b = _ :=
        read_blank (.inr rfl) (hsep b List.mem_cons_self)
      rw [Scan.pushed, if_neg hw] at hb
      rw [Transducer.run_cons_silent hb]
      exact run_blanks fun b' hb' => hsep b' (List.mem_cons_of_mem _ hb')

/-- At the end of a sentence the scanner has its words, and it has emitted nothing. -/
theorem Sentence.run (h : Sentence ws text) (hws : ∀ w ∈ ws, w ≠ [])
    (toks : List (List Byte)) :
  ∃ m t toks', (m = .ready ∨ m = .word) ∧
    scanner.run ⟨.ready, [], toks⟩ text = (⟨m, t, toks'⟩, []) ∧
    (Scan.pushed ⟨m, t, toks'⟩).tokens = ws.reverse ++ toks
  := by
  induction h generalizing toks with
  | nil => exact ⟨.ready, [], toks, .inl rfl, rfl, rfl⟩
  | one w =>
      refine ⟨.word, w, toks, .inr rfl, run_quoted, ?_⟩
      rw [Scan.pushed, if_neg (hws w List.mem_cons_self)]
      rfl
  | @cons w sep text ws hne hsep _ _ ih =>
      obtain ⟨m, t, toks', hm, hrun, htoks⟩ :=
        ih (fun w' hw' => hws w' (List.mem_cons_of_mem _ hw')) (w :: toks)
      refine ⟨m, t, toks', hm, ?_, ?_⟩
      · rw [List.append_assoc, Transducer.run_append_silent run_quoted,
          Transducer.run_append_silent (run_separator (hws w List.mem_cons_self) hne hsep), hrun]
      · rw [htoks, List.reverse_cons, List.append_assoc, List.singleton_append]

/-- The words come out at the operator. -/
theorem Sentence.run_operator (h : Sentence ws text) (hws : ∀ w ∈ ws, w ≠ [])
    (he : isOperator e = true) :
  scanner.run .start (text ++ [e]) = (.start, [ws])
  := by
  obtain ⟨m, t, toks', hm, hrun, htoks⟩ := h.run hws []
  have hblank : isBlank e ≠ true := by
    intro hblank
    simp only [isBlank, isOperator, decide_eq_true_eq] at hblank he
    rcases hblank with rfl | rfl
    · revert he
      decide
    · revert he
      decide
  have hin : ∀ s : Scan, s.inWord e = (.start, [s.pushed.tokens.reverse]) := by
    intro s
    rw [Scan.inWord, if_neg (not_quotMark (.inr he)), if_neg (not_backslash (.inr he)),
      if_neg hblank, if_pos he]
  have hread : scanner.step ⟨m, t, toks'⟩ e = (.start, [ws]) := by
    rw [List.append_nil] at htoks
    rcases hm with rfl | rfl
    · change Scan.inWord _ e = _
      rw [hin, Scan.pushed_pushed, htoks, List.reverse_reverse]
    · change Scan.inWord _ e = _
      rw [hin, htoks, List.reverse_reverse]
  rw [Scan.start, Transducer.run_append_silent hrun, Transducer.run_singleton, hread]
  rfl

/-! ### The round trip -/

/-- A word that is quoted has no zero in it if the word has none. -/
theorem zero_notMem_quoted (hw : 0 ∉ w) :
  0 ∉ quoted w
  := by
  rw [quoted, List.cons_append, List.mem_cons, List.mem_append, List.mem_flatMap]
  rintro (h | ⟨b, hb, h⟩ | h)
  · exact absurd h (by decide)
  · unfold quotedByte at h
    split at h
    · rename_i hb'
      rcases hb' with rfl | rfl
      · exact absurd h (by decide)
      · exact absurd h (by decide)
    · rw [List.mem_singleton.mp h] at hw
      exact hw hb
  · exact absurd h (by decide)

/-- A sentence has no zero in it if its words have none. -/
theorem Sentence.zero_notMem (h : Sentence ws text) (hws : ∀ w ∈ ws, 0 ∉ w) :
  0 ∉ text
  := by
  induction h with
  | nil => exact List.not_mem_nil
  | one w => exact zero_notMem_quoted (hws w List.mem_cons_self)
  | @cons w sep text ws _ hsep _ _ ih =>
      rw [List.append_assoc, List.mem_append, List.mem_append]
      rintro (h₀ | h₀ | h₀)
      · exact zero_notMem_quoted (hws w List.mem_cons_self) h₀
      · exact absurd (hsep 0 h₀) (by decide)
      · exact ih (fun w' hw' => hws w' (List.mem_cons_of_mem _ hw')) h₀

/-- The words of a sentence that ends with a newline or a semicolon are the tokens of the one
command that the parser gives for it, and nothing of the sentence is left. -/
theorem words_of_quoted {ws : List (List Byte)} {text : List Byte} {e : Byte}
    (h : Sentence ws text) (hws : ∀ w ∈ ws, w ≠ [] ∧ 0 ∉ w) (he : e = 0x0a ∨ e = 0x3b) :
  ∃ N q, (∀ n, N ≤ n →
      (addInputParser (text ++ [e]) >>= fun _ => parseInputParser n) mkParser
        = .done (.parsedCommand ws.length ws) q) ∧
    hasUnparsedInputParser q = .done false q
  := by
  have hop : isOperator e = true := by
    rcases he with rfl | rfl
    · rfl
    · rfl
  have h₀ : 0 ∉ text ++ [e] := by
    rw [List.mem_append, List.mem_singleton]
    rintro (hzero | rfl)
    · exact h.zero_notMem (fun w hw => (hws w hw).2) hzero
    · revert hop
      decide
  have hne : text ++ [e] ≠ [] := List.append_ne_nil_of_right_ne_nil _ nofun
  obtain ⟨⟨⟩, p, hadd, hp, hsame⟩ := fed_mkParser.add hne h₀
  rw [List.nil_append] at hp
  have hreads : Reads p .start :=
    ⟨reads_mkParser.toHolds.same hsame.1 hsame.2.1, hsame.2.2.trans reads_mkParser.state⟩
  obtain ⟨q, used, rest, htext, -, ⟨N, hN⟩, hq, -, hrest, -⟩ :=
    parseInputParser_returns hreads hp h₀
  have hrun := h.run_operator (fun w hw => (hws w hw).1) hop
  -- the parser stops before the end only at an operator, and there is none in the sentence
  have hend : rest = [] := by
    by_contra hrest₀
    obtain ⟨_, _, _, -, hsilent, -⟩ := h.run (fun w hw => (hws w hw).1) []
    rcases List.eq_nil_or_concat rest with hnil | ⟨init, x, hinit⟩
    · exact hrest₀ hnil
    · rw [hinit, List.concat_eq_append, ← List.append_assoc] at htext
      have hinit_eq := List.append_inj_left' htext rfl
      rw [hinit_eq] at hsilent
      have hused := Transducer.run_silent_left (congrArg Prod.snd hsilent)
      exact hrest.resolve_left hrest₀ hused
  subst hend
  rw [List.append_nil] at htext
  rw [← htext, hrun] at hN
  refine ⟨N, q, fun n hn => ?_, (Fed.pending hq).hasUnparsed List.not_mem_nil⟩
  rw [bind_done hadd]
  exact hN n hn

/-- The words `a b` and `"`, with a space and a tab between them and a semicolon at the end. -/
theorem words_of_quoted_two :
  ∃ N q, (∀ n, N ≤ n →
      (addInputParser (quoted [0x61, 0x20, 0x62] ++ [0x20, 0x09] ++ quoted [0x22] ++ [0x3b])
          >>= fun _ => parseInputParser n) mkParser
        = .done (.parsedCommand 2 [[0x61, 0x20, 0x62], [0x22]]) q) ∧
    hasUnparsedInputParser q = .done false q
  := by
  have h : Sentence [[0x61, 0x20, 0x62], [0x22]]
      (quoted [0x61, 0x20, 0x62] ++ [0x20, 0x09] ++ quoted [0x22]) :=
    .cons (List.cons_ne_nil _ _) (by decide) (List.cons_ne_nil _ _) (.one _)
  exact words_of_quoted h (by decide) (.inr rfl)

end Torgo
