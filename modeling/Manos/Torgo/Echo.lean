import Manos.Lib.Loops
import Manos.Torgo.Prompt

/-!
# What the terminal shows of a line

`readPromptShell` writes each byte back to the terminal, and for a byte that is removed a backspace,
a blank and a backspace.  On a terminal with a cursor, what is shown behind the prompt is the line
that is read.
-/

namespace Torgo

open Exec Editing

/-! ### The echo -/

instance (c : Byte) : Decidable (EndsLine c) :=
  inferInstanceAs (Decidable (c = 0 ∨ c = carriageReturn ∨ c = lineFeed))

/-- What is written for a key, when `line` was typed before. -/
def echoKey (line : List Byte) (c : Byte) : List Byte :=
  if c = delete then (if line = [] then [7] else [8, 32, 8]) else [c]

/-- What is written for the byte that ends a line. -/
def echoEnd (c : Byte) : List Byte :=
  if c = 0 then [] else if c = carriageReturn then [carriageReturn, lineFeed] else [lineFeed]

/-- What is written for the bytes up to the end of the line. -/
def echo (line : List Byte) : List Byte → List Byte
  | [] => []
  | c :: input =>
      if EndsLine c then echoEnd c else echoKey line c ++ echo (press line (key c)) input

/-- The bytes behind the first line. -/
def restOf : List Byte → List Byte
  | [] => []
  | c :: input => if EndsLine c then input else restOf input

section

variable {s : Shell} {line input : List Byte} {c : Byte}

theorem echo_cons (h : ¬ EndsLine c) :
  echo line (c :: input) = echoKey line c ++ echo (press line (key c)) input
  := by
  rw [echo, if_neg h]

/-- The echo of a line is that of its keys, and of what ends it. -/
theorem echo_append (h : ∀ c ∈ line, ¬ EndsLine c) (init : List Byte) :
  echo init (line ++ input) = echo init line ++ echo (edit init (line.map key)) input
  := by
  induction line generalizing init with
  | nil => rfl
  | cons c line ih =>
      have hc := h c List.mem_cons_self
      rw [List.cons_append, echo_cons hc, echo_cons hc,
        ih (fun d hd => h d (List.mem_cons_of_mem _ hd)), List.append_assoc, List.map_cons,
        edit_cons]

theorem restOf_length (h : input ≠ []) :
  (restOf input).length < input.length
  := by
  induction input with
  | nil => exact absurd rfl h
  | cons c input ih =>
      rw [restOf, List.length_cons]
      split
      · exact Nat.lt_succ_self _
      · rcases input with _ | ⟨d, input⟩
        · exact Nat.succ_pos _
        · exact Nat.lt_succ_of_lt (ih nofun)

/-- The bytes of the first line, and what ends it. -/
theorem input_eq (input : List Byte) :
  input = typed input ∧ restOf input = [] ∨
    ∃ c, EndsLine c ∧ input = typed input ++ c :: restOf input
  := by
  induction input with
  | nil => exact .inl ⟨rfl, rfl⟩
  | cons c input ih =>
      by_cases hc : EndsLine c
      · rw [typed_of_end hc, restOf, if_pos hc]
        exact .inr ⟨c, hc, rfl⟩
      · rw [typed_cons hc, restOf, if_neg hc]
        rcases ih with ⟨htyped, hrest⟩ | ⟨d, hd, hinput⟩
        · exact .inl ⟨congrArg _ htyped, hrest⟩
        · exact .inr ⟨d, hd, congrArg _ hinput⟩

/-! ### Turns -/

theorem dropLast_ne_zero (buf : CharBuf) :
  (dropLastCharBuf buf).1 ≠ 0 ↔ buf.text ≠ []
  := by
  have hlength := buf.length_text
  rw [dropLastCharBuf]
  split
  next hused =>
    rw [hused, List.length_eq_zero_iff] at hlength
    rw [hlength]
    exact ⟨fun h => absurd rfl h, fun h => absurd rfl h⟩
  next hused =>
    have hne : buf.text ≠ [] := fun hnil => hused (by rw [← hlength, hnil, List.length_nil])
    have hlast : buf.text.getLastD 0 = buf.text.getLast hne := by
      rw [List.getLastD_eq_getLast?, List.getLast?_eq_some_getLast hne, Option.getD_some]
    refine ⟨fun _ => hne, fun _ hzero => ?_⟩
    rw [hlast] at hzero
    exact buf.nonzero (hzero ▸ List.getLast_mem hne)

/-- The byte that ends a line is written as the two of a line end, if there is one. -/
theorem readTurn_echoEnd (h : s.input = c :: input) (hend : EndsLine c) :
  Returns s readTurn fun keepReading s' => keepReading = false ∧ s'.input = input ∧
    s'.tty = s.tty ++ echoEnd c ∧ s'.readBuf.text = s.readBuf.text ++ ending (c :: input)
  := by
  apply Returns.step (readChar_cons h)
  rw [ending_of_end hend, echoEnd]
  rcases hend with rfl | rfl | rfl
  · exact Returns.pure ⟨rfl, rfl, (List.append_nil _).symm, (List.append_nil _).symm⟩
  · refine ⟨false, _, rfl, rfl, rfl, List.append_assoc _ _ _, ?_⟩
    exact CharBuf.text_append (by decide)
  · refine ⟨false, _, rfl, rfl, rfl, rfl, ?_⟩
    exact CharBuf.text_append (by decide)

/-- Another byte is written, or what removes one from the terminal. -/
theorem readTurn_echoKey (h : s.input = c :: input) (hend : ¬ EndsLine c) :
  Returns s readTurn fun keepReading s' => keepReading = true ∧ s'.input = input ∧
    s'.tty = s.tty ++ echoKey s.readBuf.text c ∧
    s'.readBuf.text = press s.readBuf.text (key c)
  := by
  apply Returns.step (readChar_cons h)
  rw [EndsLine, not_or] at hend
  rw [if_neg hend.1, if_neg hend.2, key, echoKey]
  by_cases hdelete : c = delete
  · rw [if_pos hdelete, if_pos hdelete, if_pos hdelete]
    have hdropped : Returns { s with input := input } dropChar fun _ s' => s'.input = input ∧
        s'.tty = s.tty ++ (if s.readBuf.text = [] then [7] else [8, 32, 8]) ∧
        s'.readBuf.text = s.readBuf.text.dropLast := by
      apply Returns.get
      apply Returns.modify
      rintro s' rfl
      by_cases hline : s.readBuf.text = []
      · rw [if_neg (fun h => (dropLast_ne_zero _).mp h hline), if_pos hline]
        exact ⟨(), _, rfl, rfl, rfl, CharBuf.text_dropLast⟩
      · rw [if_pos ((dropLast_ne_zero _).mpr hline), if_neg hline]
        exact ⟨(), _, rfl, rfl, rfl, CharBuf.text_dropLast⟩
    apply hdropped.bind
    rintro _ s' hs'
    exact Returns.pure ⟨rfl, hs'⟩
  · rw [if_neg hdelete, if_neg hdelete, if_neg hdelete]
    exact ⟨true, _, rfl, rfl, rfl, rfl, CharBuf.text_append hend.1⟩

/-- The loop reads a line, and writes its echo. -/
theorem readLoop_echo {readMax : ℤ} (hmax : readMax = -1 ∨ 0 < readMax) :
  Settles s (readLoop readMax) fun _ s' => s'.input = restOf s.input ∧
    s'.tty = s.tty ++ echo s.readBuf.text s.input ∧
    s'.readBuf.text = editLine none s.readBuf.text s.input
  := by
  have hturn (k : ℕ) : readLoop readMax (k + 1) = readTurn >>= fun keepReading =>
      if keepReading = true then readLoop readMax k else pure () := by
    rw [readLoop, if_pos hmax]
  induction hinput : s.input generalizing s with
  | nil =>
      refine .succ (.congr (.step (readTurn_nil hinput) ?_) fun k => congrFun (hturn k) s)
      exact (Returns.pure ⟨hinput, (List.append_nil _).symm, rfl⟩).settles
  | cons c input ih =>
      have hlimit : none ≠ some s.readBuf.text.length := (Option.some_ne_none _).symm
      refine .succ (.congr ?_ fun k => congrFun (hturn k) s)
      by_cases hend : EndsLine c
      · refine (readTurn_echoEnd hinput hend).settles.bind ?_
        rintro _ s' ⟨rfl, hrest, htty, htext⟩
        rw [restOf, if_pos hend, echo, if_pos hend, editLine_of_end hlimit hend]
        exact (Returns.pure ⟨hrest, htty, htext⟩).settles
      · refine (readTurn_echoKey hinput hend).settles.bind ?_
        rintro _ s' ⟨rfl, hrest, htty, htext⟩
        rw [restOf, if_neg hend, echo_cons hend, editLine_cons hlimit hend, ← htext,
          ← List.append_assoc, ← htty]
        exact ih hrest

/-- The prompt, with a blank behind it. -/
def shownPrompt (promptStr : List Byte) : List Byte :=
  if promptStr.getLast? = some 32 then promptStr else promptStr ++ [32]

/-- The function writes the prompt and the echo of a line, and returns the line. -/
theorem readPromptShell_echo {promptStr : List Byte} (hprompt : promptStr ≠ []) {readMax : ℤ}
    (hmax : readMax = -1 ∨ 0 < readMax) :
  Settles s (fun k => readPromptShell k promptStr readMax) fun buf s' =>
    s'.input = restOf s.input ∧ s'.tty = s.tty ++ shownPrompt promptStr ++ echo [] s.input ∧
    buf.text = editLine none [] s.input
  := by
  have hloop : ∀ s₁ : Shell, s₁.input = s.input → s₁.tty = s.tty ++ shownPrompt promptStr →
      s₁.readBuf.text = [] →
      Settles s₁ (fun k => readLoop readMax k >>= fun _ => get >>= fun s => pure s.readBuf)
        fun buf s' => s'.input = restOf s.input ∧
          s'.tty = s.tty ++ shownPrompt promptStr ++ echo [] s.input ∧
          buf.text = editLine none [] s.input := by
    intro s₁ hinput htty hbuf
    have hecho := readLoop_echo (s := s₁) hmax
    rw [hinput, htty, hbuf] at hecho
    apply hecho.bind
    rintro _ s₂ hs₂
    exact Returns.settles ⟨s₂.readBuf, s₂, rfl, hs₂⟩
  refine .step rfl (.step rfl ?_)
  rw [List.getLast?_eq_some_getLast hprompt]
  dsimp only
  by_cases hblank : promptStr.getLast hprompt = 32
  · rw [hblank, when_neg (not_not_intro rfl)]
    refine .step rfl (hloop _ rfl ?_ CharBuf.text_clear)
    rw [shownPrompt, List.getLast?_eq_some_getLast hprompt, hblank, if_pos rfl]
  · rw [when_pos hblank]
    refine .step rfl (hloop _ rfl ?_ CharBuf.text_clear)
    rw [shownPrompt, List.getLast?_eq_some_getLast hprompt,
      if_neg fun h => hblank (Option.some.inj h), ← List.append_assoc]

end

/-! ### The terminal -/

/-- A line of a terminal, with its cursor. -/
structure Cells where
  cells : List Byte
  cursor : ℕ

/-- A byte is written: a backspace moves the cursor, a bell does nothing, and any other byte is shown
at the cursor. -/
def Cells.put (d : Cells) (c : Byte) : Cells :=
  if c = 8 then ⟨d.cells, d.cursor - 1⟩
  else if c = 7 then d
  else ⟨d.cells.take d.cursor ++ c :: d.cells.drop (d.cursor + 1), d.cursor + 1⟩

/-- What is shown after bytes are written to an empty line. -/
def shown (out : List Byte) : Cells := out.foldl Cells.put ⟨[], 0⟩

/-- A text is shown up to the cursor, and nothing behind it. -/
structure Cells.Shows (d : Cells) (t : List Byte) : Prop where
  cursor : d.cursor = t.length
  text : d.cells.take t.length = t
  blank : ∀ c ∈ d.cells.drop t.length, c = 32

/-- The bytes that a terminal shows. -/
def IsShown (c : Byte) : Prop := 32 ≤ c ∧ c ≠ delete

instance (c : Byte) : Decidable (IsShown c) :=
  inferInstanceAs (Decidable (32 ≤ c ∧ c ≠ delete))

/-- The keys of a line. -/
def IsKey (c : Byte) : Prop := c = delete ∨ IsShown c

instance (c : Byte) : Decidable (IsKey c) :=
  inferInstanceAs (Decidable (c = delete ∨ IsShown c))

section

variable {d : Cells} {t line : List Byte} {c : Byte}

theorem not_control (h : IsShown c) :
  c ≠ 8 ∧ c ≠ 7
  := by
  constructor
  · rintro rfl
    exact absurd h (by decide)
  · rintro rfl
    exact absurd h (by decide)

theorem IsKey.not_endsLine (h : IsKey c) :
  ¬ EndsLine c
  := by
  rintro (rfl | rfl | rfl)
  · exact absurd h (not_or.mpr ⟨by decide, by decide⟩)
  · exact absurd h (not_or.mpr ⟨by decide, by decide⟩)
  · exact absurd h (not_or.mpr ⟨by decide, by decide⟩)

/-- A byte is shown behind the text. -/
theorem Cells.Shows.put (h : d.Shows t) (hc : IsShown c) :
  (d.put c).Shows (t ++ [c])
  := by
  obtain ⟨h₈, h₇⟩ := not_control hc
  have hlength : (d.cells.take t.length).length = t.length := congrArg List.length h.text
  rw [Cells.put, if_neg h₈, if_neg h₇, h.cursor]
  refine ⟨?_, ?_, ?_⟩
  · rw [List.length_append, List.length_singleton]
  · rw [h.text, List.length_append, List.length_singleton, List.take_append,
      List.take_of_length_le (Nat.le_succ _), Nat.add_sub_cancel_left, List.take_succ_cons,
      List.take_zero]
  · rw [h.text, List.length_append, List.length_singleton, List.drop_append,
      List.drop_eq_nil_of_le (Nat.le_succ _), Nat.add_sub_cancel_left, List.nil_append,
      List.drop_succ_cons, List.drop_zero]
    intro e he
    rw [← List.drop_drop] at he
    exact h.blank e (List.drop_subset _ _ he)

/-- A backspace, a blank and a backspace remove the last byte of the text. -/
theorem Cells.Shows.remove (h : d.Shows (t ++ [c])) :
  (((d.put 8).put 32).put 8).Shows t
  := by
  obtain ⟨cells, cursor⟩ := d
  obtain ⟨hcursor, htext, hblank⟩ := h
  rw [List.length_append, List.length_singleton] at hcursor htext hblank
  dsimp only at hcursor htext hblank
  have htake : cells.take t.length = t := by
    have hprefix := congrArg (List.take t.length) htext
    rwa [List.take_take, Nat.min_eq_left (Nat.le_succ _), List.take_left] at hprefix
  have hput : (((Cells.mk cells cursor).put 8).put 32).put 8 =
      ⟨t ++ 32 :: cells.drop (t.length + 1), t.length⟩ := by
    change Cells.mk (cells.take (cursor - 1) ++ 32 :: cells.drop (cursor - 1 + 1))
      (cursor - 1 + 1 - 1) = _
    rw [Nat.add_sub_cancel, hcursor, Nat.add_sub_cancel, htake]
  rw [hput]
  refine ⟨rfl, List.take_left, ?_⟩
  intro e he
  rw [List.drop_left] at he
  rcases List.mem_cons.mp he with he | he
  · exact he
  · exact hblank e he

/-- The echo of keys edits what is shown behind the prompt as they edit the line. -/
theorem Cells.Shows.echo {input : List Byte} (h : d.Shows (t ++ line))
    (hinput : ∀ c ∈ input, IsKey c) :
  ((Torgo.echo line input).foldl Cells.put d).Shows (t ++ edit line (input.map key))
  := by
  induction input generalizing d line with
  | nil => exact h
  | cons c input ih =>
      have hc := hinput c List.mem_cons_self
      have hinput' : ∀ e ∈ input, IsKey e := fun e he => hinput e (List.mem_cons_of_mem _ he)
      rw [echo_cons hc.not_endsLine, List.foldl_append, List.map_cons, edit_cons]
      refine ih ?_ hinput'
      rw [echoKey, key]
      by_cases hdelete : c = delete
      · rw [if_pos hdelete, if_pos hdelete, press]
        rcases List.eq_nil_or_concat line with rfl | ⟨init, e, rfl⟩
        · exact h
        · rw [List.concat_eq_append] at h ⊢
          rw [if_neg (List.append_ne_nil_of_right_ne_nil _ (List.cons_ne_nil _ _)),
            List.dropLast_concat]
          rw [← List.append_assoc] at h
          exact h.remove
      · rw [if_neg hdelete, if_neg hdelete, press, ← List.append_assoc]
        exact h.put (hc.resolve_left hdelete)

/-- A text is shown as it is. -/
theorem shows_text (h : ∀ c ∈ t, IsShown c) :
  (shown t).Shows t
  := by
  induction t using List.reverseRecOn with
  | nil => exact ⟨rfl, rfl, nofun⟩
  | append_singleton t c ih =>
      rw [shown, List.foldl_concat]
      refine Cells.Shows.put (ih fun e he => h e (List.mem_append_left _ he)) ?_
      exact h c (List.mem_append_right _ (List.mem_singleton_self c))

/--
While a line is typed, with keys that are shown or delete, the terminal shows at each moment the
prompt and the line as far as it is typed; what is returned is that line, and the newline after it.
-/
theorem shows_line {s : Shell} {promptStr : List Byte} {readMax : ℤ}
    (hprompt : promptStr ≠ []) (hshown : ∀ c ∈ promptStr, IsShown c)
    (hmax : readMax = -1 ∨ 0 < readMax) (htyped : ∀ c ∈ typed s.input, IsKey c) :
  ∃ k₀, ∀ k, k₀ ≤ k → Returns s (readPromptShell k promptStr readMax) fun buf s' =>
    buf.text = edit [] ((typed s.input).map key) ++ ending s.input ∧
    ∀ u, u <+: typed s.input → ∃ out, s.tty ++ out <+: s'.tty ∧
      out = shownPrompt promptStr ++ echo [] u ∧
      (shown out).Shows (shownPrompt promptStr ++ edit [] (u.map key))
  := by
  have hblank : ∀ c ∈ shownPrompt promptStr, IsShown c := by
    intro c hc
    rw [shownPrompt] at hc
    split at hc
    · exact hshown c hc
    · rcases List.mem_append.mp hc with hc | hc
      · exact hshown c hc
      · rw [List.mem_singleton.mp hc]
        decide
  apply Settles.returns
  refine (readPromptShell_echo hprompt hmax).mono ?_
  rintro buf s' ⟨-, htty, hbuf⟩
  refine ⟨hbuf.trans (editLine_none _ _), fun u hu => ⟨_, ?_, rfl, ?_⟩⟩
  · obtain ⟨v, hv⟩ := hu
    have hecho : echo [] u <+: echo [] s.input := by
      rcases input_eq s.input with ⟨hinput, -⟩ | ⟨c, -, hinput⟩
      · rw [hinput, ← hv]
        rw [← hv] at htyped
        rw [echo_append fun c hc => (htyped c (List.mem_append_left _ hc)).not_endsLine]
        exact List.prefix_append _ _
      · rw [hinput, ← hv, List.append_assoc]
        rw [← hv] at htyped
        rw [echo_append fun c hc => (htyped c (List.mem_append_left _ hc)).not_endsLine]
        exact List.prefix_append _ _
    rw [htty, ← List.append_assoc]
    exact (List.prefix_append_right_inj _).mpr hecho
  · rw [shown, List.foldl_append]
    have hstart : (shown (shownPrompt promptStr)).Shows (shownPrompt promptStr ++ []) := by
      rw [List.append_nil]
      exact shows_text hblank
    exact hstart.echo fun c hc => htyped c (hu.subset hc)

end

/-- The keys `l`, `z`, delete and `s`, and the return key, behind the prompt of the shell. -/
theorem shows_line_ls :
  ∃ k buf s', readPromptShell k [0x74, 0x6f, 0x72, 0x67, 0x6f, 0x20, 0x3e, 0x20] 32
      ⟨[0x6c, 0x7a, 0x7f, 0x73, 0x0d], [], mkCharBuf 32⟩ = .done buf s' ∧
    buf.text = [0x6c, 0x73, 0x0a]
  := by
  have h : ∃ k₀, ∀ k, k₀ ≤ k → Returns ⟨[0x6c, 0x7a, 0x7f, 0x73, 0x0d], [], mkCharBuf 32⟩
      (readPromptShell k [0x74, 0x6f, 0x72, 0x67, 0x6f, 0x20, 0x3e, 0x20] 32) _ :=
    shows_line (by decide) (by decide) (.inr (by decide)) (by decide)
  obtain ⟨k, hk⟩ := h
  obtain ⟨buf, s', hrun, htext, -⟩ := hk k (Nat.le_refl k)
  exact ⟨k, buf, s', hrun, htext⟩

end Torgo
