import Manos.Torgo.Arguments
import Manos.Torgo.Cutting
import Manos.Torgo.Echo

/-!
# A session of the shell

`torgo_main`, which reads lines from the terminal, parses them and has the kernel execute the
commands.  Whatever the kernel answers, the commands that are executed are those of the text of the
lines, in their order.
-/

namespace Torgo

open Exec Editing

/-! ### The functions -/

/-- `ShellState`; no step leads to the last one. -/
inductive ShellState where
  | run
  | eof
  | exit
deriving DecidableEq

/-- What the shell does: it gets a line, or calls the kernel. -/
inductive ShellEvent where
  | line (text : List Byte)
  | kexec (path : Option (List Byte)) (argv : List (List Byte))
  | waitpid (pid : ℤ)
deriving DecidableEq

/-- `Shell`, with the terminal in its first part, and what the shell did so far. -/
structure Session where
  shell : Shell
  parser : Parser
  env : Env
  state : ShellState
  events : List ShellEvent

/-- A program on the terminal. -/
def onShell {α : Type} (x : Exec Shell α) : Exec Session α :=
  onPart Session.shell (fun t s => ⟨t, s.parser, s.env, s.state, s.events⟩) x

/-- A program on the parser. -/
def onParser {α : Type} (x : Exec Parser α) : Exec Session α :=
  onPart Session.parser (fun t s => ⟨s.shell, t, s.env, s.state, s.events⟩) x

/-- A program on the environment. -/
def onEnv {α : Type} (x : Exec Env α) : Exec Session α :=
  onPart Session.env (fun t s => ⟨s.shell, s.parser, t, s.state, s.events⟩) x

/-- Something is done. -/
def record (e : ShellEvent) : Exec Session Unit :=
  modify fun s => ⟨s.shell, s.parser, s.env, s.state, s.events ++ [e]⟩

/-- The strings of a vector, up to the null pointer. -/
def stringsOf : List (Option (List Byte)) → List (List Byte)
  | some mem :: argv => cstr mem :: stringsOf argv
  | _ => []

section

variable (pid : List ShellEvent → ℤ)

/-- `kexec(cmdArgv[0], cmdArgv)`; the kernel answers `pid` of what was done. -/
def kexec : List (Option (List Byte)) → Exec Session ℤ
  | [] => fault (.wild "cmdArgv")
  | path :: argv => do
      record (.kexec (path.map cstr) (stringsOf (path :: argv)))
      let s ← get
      return pid s.events

/-- `"torgo > "` -/
def ps1 : List Byte := [0x74, 0x6f, 0x72, 0x67, 0x6f, 0x20, 0x3e, 0x20]

/-- `"> "` -/
def ps2 : List Byte := [0x3e, 0x20]

/-- The body of the inner loop of `torgo_main` behind `parseInputParser`, which returns the prompt -/
def evalResult (k : ℕ) : ParseResult → Exec Session (List Byte)
  | .parseIncomplete => return ps2
  | .parsedCommand length tokens => do
      let r ← onEnv (populateCmdArgsShell k (.parsedCommand length tokens))
      let p ← kexec pid r.2.2
      when (0 < p ∧ r.1 = false) (record (.waitpid p))
      return ps1

/-- The inner loop of `torgo_main`, with at most so many turns -/
def evalLoop : ℕ → List Byte → Exec Session (List Byte)
  | 0, _ => fault .endless
  | k + 1, ps => do
      let more ← onParser hasUnparsedInputParser
      if more = true then do
        let result ← onParser (parseInputParser k)
        let ps ← evalResult pid k result
        evalLoop k ps
      else return ps

/-- `"error: unexpected end-of-file\n"` -/
def unexpectedEnd : List Byte :=
  [0x65, 0x72, 0x72, 0x6f, 0x72, 0x3a, 0x20, 0x75, 0x6e, 0x65, 0x78, 0x70, 0x65, 0x63, 0x74, 0x65,
    0x64, 0x20, 0x65, 0x6e, 0x64, 0x2d, 0x6f, 0x66, 0x2d, 0x66, 0x69, 0x6c, 0x65, 0x0a]

/-- The branch of `torgo_main` in which the line is empty -/
def endSession : Exec Session Unit := do
  modify fun s => ⟨s.shell, s.parser, s.env, .eof, s.events⟩
  let more ← onParser hasUnparsedInputParser
  when (more = true) (onShell (fputstr unexpectedEnd))
  onShell (fputstr [lineFeed])

/-- The loop of `torgo_main`, with at most so many turns -/
def promptLoop : ℕ → List Byte → Exec Session Unit
  | 0, _ => fault .endless
  | k + 1, ps => do
      let s ← get
      if s.state = .run then do
        let input ← onShell (readPromptShell k ps 32)
        if isEmptyCharBuf input = true then endSession
        else do
          record (.line (mkString (fromCharBuf input)))
          onParser (addInputParser (fromCharBuf input))
          let ps ← evalLoop pid k ps
          promptLoop k ps
      else return ()

/-- `torgo_main`; the greeting is not spelled out, and the shell is made without a failure. -/
def torgo_main (greeting : List Byte) (k : ℕ) : Exec Session ℤ := do
  modify fun s => ⟨⟨s.shell.input, s.shell.tty, mkCharBuf 32⟩, mkParser, Env.empty, .run, s.events⟩
  onShell (fputstr greeting)
  promptLoop pid k ps1
  return 0

/-! ### The text of a session -/

/-- The lines up to the first one that is empty. -/
def sessionLines (input : List Byte) : List (List Byte) :=
  if editLine none [] input = [] then []
  else editLine none [] input :: sessionLines (restOf input)
termination_by input.length
decreasing_by
  rename_i hline
  exact restOf_length fun hnil => hline (by rw [hnil, editLine])

/-- The words of the commands in the lines. -/
def sessionCommands (input : List Byte) : List (List (List Byte)) :=
  (scanner.run .start (sessionLines input).flatten).2

/-- The arguments of a command, and whether it is to run in the background; no variable has a
value. -/
def commandOf (words : List (List Byte)) : Bool × List (List Byte) :=
  background (words.map (expandVars fun _ => []))

/-- A command is executed, and waited for unless it runs in the background. -/
def perform (done : List ShellEvent) (words : List (List Byte)) : List ShellEvent :=
  let called := done ++ [.kexec (commandOf words).2.head? (commandOf words).2]
  if 0 < pid called ∧ (commandOf words).1 = false then called ++ [.waitpid (pid called)] else called

/-- What is done for lines, when a part of a command was read before. -/
def performs : Scan → List ShellEvent → List (List Byte) → List ShellEvent
  | _, done, [] => done
  | s, done, line :: lines =>
      performs (scanner.run s line).1
        ((scanner.run s line).2.foldl (perform pid) (done ++ [.line line])) lines

end

/-- The last byte of the line ends a command. -/
def completes (s : Scan) (line : List Byte) : Bool :=
  line.getLast?.any fun c => (scanner.step (scanner.run s line.dropLast).1 c).2 ≠ []

/-- The prompt after a line: the second one where the line ends inside of a command. -/
def promptAfter (s : Scan) (line : List Byte) : List Byte :=
  if completes s line = true then ps1 else ps2

/-- What is written to the terminal for the lines, when a part of a command was read before. -/
def dialogue (ps : List Byte) (s : Scan) (input : List Byte) : List Byte :=
  shownPrompt ps ++ echo [] input ++
    if editLine none [] input = [] then []
    else dialogue (promptAfter s (editLine none [] input))
      (scanner.run s (editLine none [] input)).1 (restOf input)
termination_by input.length
decreasing_by
  rename_i hline
  exact restOf_length fun hnil => hline (by rw [hnil, editLine])

/-- The last word of a command does not expand to nothing. -/
def Expands (words : List (List Byte)) : Prop :=
  ∀ w ∈ words.getLast?, ¬ Vanishes (fun _ => []) w

/-! ### Words without zeros -/

/-- There is no zero in the words that were read. -/
def Scan.Nonzero (s : Scan) : Prop := 0 ∉ s.token ∧ ∀ w ∈ s.tokens, 0 ∉ w

section

variable {s : Scan} {c : Byte} {bs line : List Byte}

theorem Scan.Nonzero.pushed (h : s.Nonzero) :
  s.pushed.Nonzero
  := by
  rw [Scan.pushed]
  split
  · exact h
  · refine ⟨List.not_mem_nil, fun w hw => ?_⟩
    rcases List.mem_cons.mp hw with rfl | hw
    · exact h.1
    · exact h.2 w hw

theorem Scan.Nonzero.append (h : s.Nonzero) (hc : c ≠ 0) :
  (s.append c).Nonzero
  := by
  refine ⟨fun hzero => ?_, h.2⟩
  rcases List.mem_append.mp hzero with hzero | hzero
  · exact h.1 hzero
  · exact hc (List.mem_singleton.mp hzero).symm

theorem Scan.Nonzero.enter (h : s.Nonzero) (m : Mode) :
  (s.enter m).Nonzero
  := h

theorem no_words :
  ∀ words ∈ ([] : List (List (List Byte))), ∀ w ∈ words, 0 ∉ w
  := fun _ h => absurd h List.not_mem_nil

theorem Scan.Nonzero.inWord (h : s.Nonzero) (hc : c ≠ 0) :
  (s.inWord c).1.Nonzero ∧ ∀ words ∈ (s.inWord c).2, ∀ w ∈ words, 0 ∉ w
  := by
  rw [Scan.inWord]
  split
  · exact ⟨h.enter _, no_words⟩
  · split
    · exact ⟨h.enter _, no_words⟩
    · split
      · exact ⟨h.pushed.enter _, no_words⟩
      · split
        · refine ⟨⟨List.not_mem_nil, fun _ hw => absurd hw List.not_mem_nil⟩, ?_⟩
          intro words hwords w hw
          rw [List.mem_singleton.mp hwords, List.mem_reverse] at hw
          exact h.pushed.2 w hw
        · exact ⟨(h.append hc).enter _, no_words⟩

theorem Scan.Nonzero.read (h : s.Nonzero) (hc : c ≠ 0) :
  (s.read c).1.Nonzero ∧ ∀ words ∈ (s.read c).2, ∀ w ∈ words, 0 ∉ w
  := by
  rw [Scan.read]
  split
  · exact h.pushed.inWord hc
  · exact h.inWord hc
  · refine ⟨?_, no_words⟩
    rw [Scan.inQuotation]
    split
    · exact h.enter _
    · split
      · exact h.enter _
      · exact h.append hc
  · exact ⟨(h.append (escaped_ne_zero hc)).enter _, no_words⟩
  · exact ⟨(h.append (escaped_ne_zero hc)).enter _, no_words⟩

/-- A text without zeros has no words with zeros. -/
theorem Scan.Nonzero.run (h : s.Nonzero) (hbs : 0 ∉ bs) :
  (scanner.run s bs).1.Nonzero ∧ ∀ words ∈ (scanner.run s bs).2, ∀ w ∈ words, 0 ∉ w
  := by
  induction bs generalizing s with
  | nil => exact ⟨h, no_words⟩
  | cons c bs ih =>
      rw [List.mem_cons, not_or] at hbs
      obtain ⟨hread, hwords⟩ := h.read (Ne.symm hbs.1)
      obtain ⟨hrun, hrest⟩ := ih hread hbs.2
      refine ⟨hrun, fun words hmem => ?_⟩
      rcases List.mem_append.mp hmem with hmem | hmem
      · exact hwords words hmem
      · exact hrest words hmem

theorem Reads.scan_nonzero {p : Parser} (h : Reads p s) :
  s.Nonzero
  := ⟨h.token ▸ p.token.nonzero, h.nonzero⟩

/-! ### Prompts -/

theorem completes_append {rest : List Byte} (h : rest ≠ []) :
  completes s (line ++ rest) = completes (scanner.run s line).1 rest
  := by
  rw [completes, completes, List.getLast?_append_of_ne_nil _ h, List.dropLast_append_of_ne_nil h,
    Transducer.run_append]

/-- A line that emits at its end only. -/
theorem completes_of_emitsLast (h : scanner.EmitsLast s line) (hne : line ≠ []) :
  completes s line = decide ((scanner.run s line).2 ≠ [])
  := by
  obtain ⟨init, c, rfl⟩ : ∃ init c, line = init ++ [c] :=
    ⟨line.dropLast, line.getLast hne, (List.dropLast_concat_getLast hne).symm⟩
  have hinit := h init [c] rfl (List.cons_ne_nil _ _)
  rw [completes, List.getLast?_concat, List.dropLast_concat, Transducer.run_append,
    Transducer.run_singleton, hinit]
  rfl

/-! ### One command -/

theorem stringsOf_blocks (blocks : List (List Byte)) :
  stringsOf (blocks.map some ++ [none]) = blocks.map cstr
  := by
  induction blocks with
  | nil => rfl
  | cons b blocks ih => exact congrArg (cstr b :: ·) ih

theorem exists_tokens {words : List (List Byte)} (h : ∀ w ∈ words, 0 ∉ w) :
  ∃ tokens : List DString, tokens.map DString.bytes = words
  := by
  induction words with
  | nil => exact ⟨[], rfl⟩
  | cons w words ih =>
      obtain ⟨tokens, rfl⟩ := ih fun v hv => h v (List.mem_cons_of_mem _ hv)
      exact ⟨⟨w, h w List.mem_cons_self⟩ :: tokens, rfl⟩

/-- The vector of arguments of a command in an environment without bindings. -/
theorem populateCmdArgsShell_settles {t : Env} (henv : t.Holds []) {words : List (List Byte)}
    (hwords : ∀ w ∈ words, 0 ∉ w) (hexpands : Expands words) :
  Settles t (fun k => populateCmdArgsShell k (.parsedCommand words.length words)) fun r t' =>
    t' = t ∧ r.1 = (commandOf words).1 ∧ ∃ blocks : List (List Byte),
      r.2.2 = blocks.map some ++ [none] ∧ blocks.map cstr = (commandOf words).2
  := by
  obtain ⟨tokens, rfl⟩ := exists_tokens hwords
  have hargs : (tokens.map DString.bytes).map (expandVars fun _ => []) =
      tokens.map (argument t []) := List.map_map
  rw [List.length_map, commandOf, hargs]
  rcases List.eq_nil_or_concat tokens with rfl | ⟨init, u, htokens⟩
  · exact ⟨_, t, ⟨0, fun k _ => rfl⟩, rfl, rfl, [], rfl, rfl⟩
  · rw [List.concat_eq_append] at htokens
    subst htokens
    have hne : argument t [] u ≠ [] := by
      rw [Expands, List.map_append, List.map_singleton, List.getLast?_concat] at hexpands
      exact fun hnil => hexpands _ rfl ((expandVars_eq_nil_iff _ _).mp hnil)
    obtain ⟨flag, block, hcheck, hbackground, -⟩ :=
      checkBackground_returns (s := t) hne (zero_notMem_argument henv u)
        (init.map (argument t []))
    obtain ⟨k₀, hk₀⟩ := exists_bound (init ++ [u]) []
    have hrun : ∀ k, k₀ ≤ k → populateCmdArgsShell k (.parsedCommand (init ++ [u]).length
        ((init ++ [u]).map DString.bytes)) t = .done (flag, (init ++ [u]).length,
          (argBlocks t [] init).map some ++ [some block] ++ [none]) t := by
      intro k hk
      have hsnoc := populateCmdArgsShell_snoc henv fun v hv => Nat.lt_of_lt_of_le (hk₀ v hv) hk
      rwa [bind_done hcheck, pure_apply] at hsnoc
    refine ⟨_, t, ⟨k₀, hrun⟩, rfl, ?_, argBlocks t [] init ++ [block], ?_, ?_⟩
    · rw [List.map_append, List.map_singleton, hbackground]
    · rw [List.map_append, List.map_singleton]
    · rw [List.map_append, List.map_append, List.map_singleton, List.map_singleton, hbackground,
        map_cstr_argBlocks henv]

variable {pid : List ShellEvent → ℤ} {t : Session}

/-- The kernel is called with the strings of the vector. -/
theorem kexec_apply (blocks : List (List Byte)) (t : Session) :
  kexec pid (blocks.map some ++ [none]) t = .done
    (pid (t.events ++ [.kexec (blocks.map cstr).head? (blocks.map cstr)]))
    ⟨t.shell, t.parser, t.env, t.state,
      t.events ++ [.kexec (blocks.map cstr).head? (blocks.map cstr)]⟩
  := by
  have hstrings := stringsOf_blocks blocks
  cases blocks with
  | nil => rfl
  | cons b blocks =>
      rw [List.map_cons, List.cons_append] at hstrings ⊢
      rw [kexec, hstrings]
      rfl

/-- A command is executed. -/
theorem evalResult_settles (henv : t.env.Holds []) {words : List (List Byte)}
    (hwords : ∀ w ∈ words, 0 ∉ w) (hexpands : Expands words) :
  Settles t (fun k => evalResult pid k (.parsedCommand words.length words)) fun ps t' =>
    ps = ps1 ∧ t' = ⟨t.shell, t.parser, t.env, t.state, perform pid t.events words⟩
  := by
  have hargs := (populateCmdArgsShell_settles henv hwords hexpands).onPart (s := t)
    (f := fun e s => Session.mk s.shell s.parser e s.state s.events)
  refine hargs.bind ?_
  rintro ⟨flag, argc, argv⟩ t₁ ⟨_, ⟨rfl, rfl, blocks, rfl, hblocks⟩, rfl⟩
  refine .step (kexec_apply blocks _) ?_
  rw [hblocks, perform]
  dsimp only
  split
  next hwait =>
    rw [when_pos hwait]
    exact Returns.settles ⟨ps1, _, rfl, rfl, rfl⟩
  next hwait =>
    rw [when_neg hwait]
    exact Returns.settles ⟨ps1, _, rfl, rfl, rfl⟩

/-- The commands that a line completes are executed one after another. -/
theorem evalLoop_settles {ps : List Byte} (hr : Reads t.parser s) (hp : Fed t.parser bs)
    (hbs : 0 ∉ bs) (henv : t.env.Holds [])
    (hexpands : ∀ words ∈ (scanner.run s bs).2, Expands words) :
  Settles t (evalLoop pid · ps) fun ps' t' =>
    Reads t'.parser (scanner.run s bs).1 ∧ Fed t'.parser [] ∧
    t' = ⟨t.shell, t'.parser, t.env, t.state, (scanner.run s bs).2.foldl (perform pid) t.events⟩ ∧
    ps' = if bs = [] then ps else promptAfter s bs
  := by
  -- each call of the parser reads one byte at least
  induction hlen : bs.length using Nat.strongRecOn generalizing t s bs ps with
  | ind m ih =>
      have hmore : onParser hasUnparsedInputParser t = .done (! bs.isEmpty) t := by
        rw [onParser, onPart, hp.hasUnparsed hbs]
      cases bs with
      | nil =>
          refine .succ (.step hmore ?_)
          exact Returns.settles ⟨ps, t, rfl, hr, hp, rfl, (if_pos rfl).symm⟩
      | cons c bs =>
          have hpend : Pending t.parser (c :: bs) := by
            cases hp with
            | pending hp => exact hp
          obtain ⟨q, used, rest, hsplit, hne, hparse, hq, hreads, ⟨-, hlast⟩, hcmd⟩ :=
            parseInputParser_emits hr hpend hbs
          have hused : used ≠ [] := hne (List.cons_ne_nil _ _)
          have hshort : rest.length < m := by
            have hpos := List.length_pos_iff.mpr hused
            rw [← hlen, hsplit, List.length_append]
            omega
          rw [hsplit] at hbs hexpands ⊢
          rw [List.mem_append, not_or] at hbs
          rw [Transducer.run_append] at hexpands
          have hparsed : Settles t (fun k => onParser (parseInputParser k)) fun r t₁ =>
              r = resultOf (scanner.run s used).2 ∧
              t₁ = ⟨t.shell, q, t.env, t.state, t.events⟩ := by
            have hsettles : Settles t.parser parseInputParser fun r p =>
                r = resultOf (scanner.run s used).2 ∧ p = q := ⟨_, q, hparse, rfl, rfl⟩
            refine hsettles.onPart.mono ?_
            rintro r _ ⟨p, ⟨rfl, rfl⟩, rfl⟩
            exact ⟨rfl, rfl⟩
          -- the prompt and the events after this call
          have heval : Settles ⟨t.shell, q, t.env, t.state, t.events⟩
              (fun k => evalResult pid k (resultOf (scanner.run s used).2)) fun ps' t₁ =>
              ps' = promptAfter s used ∧ t₁ = ⟨t.shell, q, t.env, t.state,
                (scanner.run s used).2.foldl (perform pid) t.events⟩ := by
            have hcompletes := completes_of_emitsLast hlast hused
            cases hemits : (scanner.run s used).2 with
            | nil =>
                rw [hemits] at hcompletes
                rw [promptAfter, hcompletes]
                exact Returns.settles ⟨ps2, _, rfl, rfl, rfl⟩
            | cons words more =>
                rw [hemits] at hcmd hcompletes hexpands
                obtain rfl : more = [] := (List.cons.inj hcmd).2.symm
                rw [promptAfter, hcompletes]
                refine evalResult_settles (t := ⟨t.shell, q, t.env, t.state, t.events⟩) henv ?_ ?_
                · have hnonzero := (hr.scan_nonzero.run hbs.1).2
                  rw [hemits] at hnonzero
                  exact hnonzero words List.mem_cons_self
                · exact hexpands words (List.mem_append_left _ List.mem_cons_self)
          refine .succ (.step hmore (hparsed.bind ?_))
          rintro _ _ ⟨rfl, rfl⟩
          refine heval.bind ?_
          rintro _ _ ⟨rfl, rfl⟩
          refine (ih _ hshort (t := ⟨t.shell, q, t.env, t.state,
            (scanner.run s used).2.foldl (perform pid) t.events⟩) hreads (.pending hq) hbs.2 henv
            (fun words hwords => hexpands words (List.mem_append_right _ hwords)) rfl).mono ?_
          rintro ps' t' ⟨hreads', hfed', ht', hps'⟩
          rw [Transducer.run_append]
          refine ⟨hreads', hfed', ?_, ?_⟩
          · rw [ht', List.foldl_append]
          · rw [hps', if_neg (List.append_ne_nil_of_left_ne_nil hused _)]
            split
            next hnil => rw [hnil, List.append_nil]
            next hnil => rw [promptAfter, promptAfter, completes_append hnil]

/-! ### All lines -/

theorem sessionLines_nil {input : List Byte} (h : editLine none [] input = []) :
  sessionLines input = []
  := by
  rw [sessionLines, if_pos h]

theorem sessionLines_cons {input : List Byte} (h : editLine none [] input ≠ []) :
  sessionLines input = editLine none [] input :: sessionLines (restOf input)
  := by
  rw [sessionLines, if_neg h]

/-- A string that is in a buffer is added as its text. -/
theorem addInputParser_text (buf : CharBuf) :
  addInputParser (fromCharBuf buf) = addInputParser buf.text
  := by
  have htext : mkString buf.text = buf.text := cstr_of_notMem buf.nonzero
  rw [addInputParser, addInputParser, CharBuf.mkString_text, htext]

/-- At the end of the input there is nothing that was not parsed. -/
theorem endSession_returns (hp : Fed t.parser []) :
  Returns t endSession fun _ t' => t'.state = .eof ∧ t'.events = t.events ∧
    t'.shell.tty = t.shell.tty ++ [lineFeed]
  := by
  have hmore : onParser hasUnparsedInputParser
      ⟨t.shell, t.parser, t.env, .eof, t.events⟩ =
        .done false ⟨t.shell, t.parser, t.env, .eof, t.events⟩ := by
    rw [onParser, onPart, hp.hasUnparsed List.not_mem_nil]
    rfl
  refine .step rfl (.step hmore ?_)
  rw [when_neg Bool.false_ne_true]
  exact ⟨(), _, rfl, rfl, rfl, rfl⟩

/-- The lines are read and their commands executed, up to the first line that is empty. -/
theorem promptLoop_settles {ps : List Byte} (hps : ps ≠ []) (hr : Reads t.parser s)
    (hp : Fed t.parser []) (henv : t.env.Holds []) (hstate : t.state = .run)
    (hexpands : ∀ words ∈ (scanner.run s (sessionLines t.shell.input).flatten).2, Expands words) :
  Settles t (promptLoop pid · ps) fun _ t' => t'.state = .eof ∧
    t'.events = performs pid s t.events (sessionLines t.shell.input) ∧
    t'.shell.tty = t.shell.tty ++ dialogue ps s t.shell.input ++ [lineFeed]
  := by
  -- each line that is not empty takes one byte at least of the input
  induction hlen : t.shell.input.length using Nat.strongRecOn generalizing t s ps with
  | ind m ih =>
      have hread := (readPromptShell_echo hps (.inr (by decide : (0 : ℤ) < 32))).onPart (s := t)
        (g := Session.shell) (f := fun sh s => ⟨sh, s.parser, s.env, s.state, s.events⟩)
      refine .succ (.step rfl (.congr (hread.bind ?_) fun k => congrFun (if_pos hstate) t))
      rintro buf _ ⟨sh, ⟨hinput, htty, hbuf⟩, rfl⟩
      by_cases hline : editLine none [] t.shell.input = []
      · have hempty : isEmptyCharBuf buf = true := CharBuf.isEmpty_iff.mpr (hbuf.trans hline)
        have hend := endSession_returns (t := ⟨sh, t.parser, t.env, t.state, t.events⟩) hp
        refine .congr (hend.mono ?_).settles fun k => congrFun (if_pos hempty) _
        rintro _ t' ⟨hend, hevents, hscreen⟩
        rw [sessionLines_nil hline, dialogue, if_pos hline, List.append_nil, ← List.append_assoc]
        exact ⟨hend, hevents, hscreen.trans (congrArg (· ++ _) htty)⟩
      · have hempty : isEmptyCharBuf buf ≠ true := by
          rw [Ne, CharBuf.isEmpty_iff, hbuf]
          exact hline
        have hshort : (restOf t.shell.input).length < m := by
          rw [← hlen]
          exact restOf_length fun hnil => hline (by rw [hnil, editLine])
        have hnonzero : 0 ∉ editLine none [] t.shell.input := hbuf ▸ buf.nonzero
        rw [sessionLines_cons hline, List.flatten_cons, Transducer.run_append] at hexpands
        refine .congr ?_ fun k => congrFun (if_neg hempty) _
        refine .step rfl ?_
        rw [CharBuf.mkString_text, addInputParser_text, hbuf]
        have hadd := (hp.add hline hnonzero).onPart
          (s := Session.mk sh t.parser t.env t.state
            (t.events ++ [.line (editLine none [] t.shell.input)]))
          (g := Session.parser) (f := fun p s => ⟨s.shell, p, s.env, s.state, s.events⟩)
        refine hadd.settles.bind ?_
        rintro _ _ ⟨p, ⟨hpend, hsame⟩, rfl⟩
        rw [List.nil_append] at hpend
        have hreads : Reads p s :=
          ⟨hr.toHolds.same hsame.1 hsame.2.1, hsame.2.2.trans hr.state⟩
        refine (evalLoop_settles (t := ⟨sh, p, t.env, t.state,
          t.events ++ [.line (editLine none [] t.shell.input)]⟩) hreads (.pending hpend) hnonzero
          henv fun words hwords => hexpands words (List.mem_append_left _ hwords)).bind ?_
        rintro ps' ⟨sh', p', e', state', events'⟩ ⟨hreads', hfed', ht', rfl⟩
        obtain ⟨rfl, -, rfl, rfl, rfl⟩ := Session.mk.inj ht'
        rw [if_neg hline]
        refine (ih _ hshort ?_ hreads' hfed' henv hstate ?_ (congrArg _ hinput)).mono ?_
        · rw [promptAfter]
          split
          · exact List.cons_ne_nil _ _
          · exact List.cons_ne_nil _ _
        · intro words hwords
          refine hexpands words (List.mem_append_right _ ?_)
          rwa [← hinput]
        · rintro _ t' ⟨hend, hevents, hscreen⟩
          rw [sessionLines_cons hline, dialogue, if_neg hline]
          refine ⟨hend, ?_, ?_⟩
          · rw [hevents, hinput]
            rfl
          · rw [hscreen, htty, hinput]
            simp only [List.append_assoc]

/-- The vectors of the commands that were executed. -/
def ShellEvent.executed : ShellEvent → Option (List (List Byte))
  | .kexec _ argv => some argv
  | _ => none

theorem executed_perform (done : List ShellEvent) (words : List (List Byte)) :
  (perform pid done words).filterMap ShellEvent.executed =
    done.filterMap ShellEvent.executed ++ [(commandOf words).2]
  := by
  rw [perform]
  split
  · rw [List.filterMap_append, List.filterMap_append]
    exact List.append_nil _
  · rw [List.filterMap_append]
    rfl

/-- The commands are executed in their order, however the text is divided into lines. -/
theorem executed_performs (s : Scan) (done : List ShellEvent) (lines : List (List Byte)) :
  (performs pid s done lines).filterMap ShellEvent.executed =
    done.filterMap ShellEvent.executed ++
      (scanner.run s lines.flatten).2.map fun words => (commandOf words).2
  := by
  have hfold (done : List ShellEvent) (cmds : List (List (List Byte))) :
      (cmds.foldl (perform pid) done).filterMap ShellEvent.executed =
        done.filterMap ShellEvent.executed ++ cmds.map fun words => (commandOf words).2 := by
    induction cmds generalizing done with
    | nil => exact (List.append_nil _).symm
    | cons words cmds ih =>
        rw [List.foldl_cons, ih, executed_perform, List.append_assoc]
        rfl
  induction lines generalizing s done with
  | nil => exact (List.append_nil _).symm
  | cons line lines ih =>
      rw [performs, ih, hfold, List.flatten_cons, Transducer.run_append, List.map_append,
        ← List.append_assoc, List.filterMap_append]
      congr 2
      exact List.append_nil _

/-- The shell returns at the end of the input, when it has done what the lines ask for. -/
theorem torgo_main_settles (pid : List ShellEvent → ℤ) (greeting : List Byte) (t : Session)
    (hexpands : ∀ words ∈ sessionCommands t.shell.input, Expands words) :
  Settles t (torgo_main pid greeting) fun r t' => r = 0 ∧ t'.state = .eof ∧
    t'.events = performs pid .start t.events (sessionLines t.shell.input) ∧
    t'.shell.tty = t.shell.tty ++ greeting ++ dialogue ps1 .start t.shell.input ++ [lineFeed]
  := by
  have hloop : Settles ⟨⟨t.shell.input, t.shell.tty ++ greeting, mkCharBuf 32⟩, mkParser, Env.empty,
      .run, t.events⟩ (promptLoop pid · ps1) _ :=
    promptLoop_settles (List.cons_ne_nil _ _) reads_mkParser fed_mkParser Env.empty_holds rfl
      hexpands
  refine .step rfl (.step rfl (hloop.bind ?_))
  rintro _ t' ⟨hend, hevents, hscreen⟩
  exact Returns.settles ⟨0, t', rfl, rfl, hend, hevents, hscreen⟩

/--
Whatever the kernel answers, the shell reads the lines up to the first empty one, and executes after
each of them the commands that it completes, waiting for those that run in the foreground, unless
the last word of a command expands to nothing.  The commands are those of the text of the lines.
On the terminal are the prompts, the second one inside of a command, and the echo of the lines; no
error is written where the input ends inside of a command.
-/
theorem torgo_executes (pid : List ShellEvent → ℤ) (greeting : List Byte) (t : Session)
    (hexpands : ∀ words ∈ sessionCommands t.shell.input, Expands words) :
  ∃ k₀, ∀ k, k₀ ≤ k → Returns t (torgo_main pid greeting k) fun r t' =>
    r = 0 ∧ t'.state = .eof ∧
    t'.events = performs pid .start t.events (sessionLines t.shell.input) ∧
    t'.events.filterMap ShellEvent.executed = t.events.filterMap ShellEvent.executed ++
      (sessionCommands t.shell.input).map (fun words => (commandOf words).2) ∧
    t'.shell.tty = t.shell.tty ++ greeting ++ dialogue ps1 .start t.shell.input ++ [lineFeed]
  := by
  refine ((torgo_main_settles pid greeting t hexpands).mono ?_).returns
  rintro r t' ⟨hr, hend, hevents, hscreen⟩
  refine ⟨hr, hend, hevents, ?_, hscreen⟩
  rw [hevents]
  exact executed_performs _ _ _

end

/-- The commands of the text `ls;ps&` and the return key -/
theorem sessionCommands_ls :
  sessionCommands [0x6c, 0x73, 0x3b, 0x70, 0x73, 0x26, 0x0d] =
    [[[0x6c, 0x73]], [[0x70, 0x73, 0x26]]]
  := by
  have hlines : sessionLines [0x6c, 0x73, 0x3b, 0x70, 0x73, 0x26, 0x0d] =
      [[0x6c, 0x73, 0x3b, 0x70, 0x73, 0x26, 0x0a]] := by
    rw [sessionLines_cons (by decide), sessionLines_nil (by decide)]
    decide
  rw [sessionCommands, hlines]
  decide

theorem expands_ls :
  ∀ words ∈ sessionCommands [0x6c, 0x73, 0x3b, 0x70, 0x73, 0x26, 0x0d], Expands words
  := by
  rw [sessionCommands_ls]
  intro words hwords w hw
  rw [← expandVars_eq_nil_iff]
  rcases List.mem_cons.mp hwords with rfl | hwords
  · have hword : w = [0x6c, 0x73] := (Option.some.inj hw).symm
    rw [hword, expandVars_literal (by decide)]
    exact List.cons_ne_nil _ _
  · rw [List.mem_singleton.mp hwords] at hw
    have hword : w = [0x70, 0x73, 0x26] := (Option.some.inj hw).symm
    rw [hword, expandVars_literal (by decide)]
    exact List.cons_ne_nil _ _

/-- The text `ls;ps&` and the return key, and then the end of file. -/
theorem torgo_executes_ls :
  ∃ k r t', torgo_main (fun _ => 1) [] k ⟨⟨[0x6c, 0x73, 0x3b, 0x70, 0x73, 0x26, 0x0d], [],
      mkCharBuf 32⟩, mkParser, Env.empty, .run, []⟩ = .done r t' ∧ t'.state = .eof ∧
    t'.events.filterMap ShellEvent.executed =
      [(commandOf [[0x6c, 0x73]]).2, (commandOf [[0x70, 0x73, 0x26]]).2]
  := by
  obtain ⟨k, hk⟩ := torgo_executes (fun _ => 1) [] ⟨⟨[0x6c, 0x73, 0x3b, 0x70, 0x73, 0x26, 0x0d], [],
    mkCharBuf 32⟩, mkParser, Env.empty, .run, []⟩ expands_ls
  obtain ⟨r, t', hrun, -, hend, -, hexecuted, -⟩ := hk k (Nat.le_refl k)
  refine ⟨k, r, t', hrun, hend, ?_⟩
  rw [hexecuted, sessionCommands_ls]
  rfl

end Torgo
