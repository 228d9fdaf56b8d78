import Manos.Dev.Execv
import Manos.Lib.Objects
import Manos.Torgo.Session

/-!
# Sessions with the kernel

A session of `torgo_main` whose calls of `kexec` are answered by `sysexecv`.  The processes that are
made are those of the commands in the text that was typed, and no two of them have a block in
common.
-/

namespace Torgo

open Exec Dev

/-! ### Calls of `sysexecv` -/

section

variable (pf : Platform) (hw : Hardware) (fileInfo : ℕ → Byte)

/-- The kernel serves a call of `kexec`. -/
def serve (call : Option Name × List Name) : Exec Execv ℤ :=
  sysexecv pf hw fileInfo call.1 call.2

/-- The path and the vector of a call of `kexec` -/
def ShellEvent.called : ShellEvent → Option (Option Name × List Name)
  | .kexec path argv => some (path, argv)
  | _ => none

/-- The kernel serves what the shell did. -/
def kernel (events : List ShellEvent) : Exec Execv (List ℤ) :=
  calls (serve pf hw fileInfo) (events.filterMap ShellEvent.called)

/-- What the kernel that started in a state answers to the last call of `kexec`. -/
def answer (s : Execv) (events : List ShellEvent) : ℤ :=
  match kernel pf hw fileInfo events s with
  | .done rs _ => rs.getLast?.getD (-1)
  | .stop _ _ => -1

end

variable {pf : Platform} {hw : Hardware} {fileInfo : ℕ → Byte} {v : Node pf} {s s' s'' : Execv}

/-- The command that a vector of arguments launches. -/
def launched (v : Node pf) (argv : List Name) : Option Cmd :=
  argv.head?.bind fun path => (executed v path).bind Node.command

/-- A block is the stack of a process on the free list, one of those before the `n`th. -/
def Reserved (n : ℕ) (s : Execv) (a : ℕ) : Prop :=
  ∃ i, s.made.length ≤ i ∧ i < n ∧ (s.free i).1.stack = some a

/--
A state in which processes can be made until there are `n`: the free list has them, their stacks
are allocated, and no two of them have the same one.
-/
structure Serving (pf : Platform) (v : Node pf) (n : ℕ) (s : Execv) : Prop where
  dot : At s.files.dot.2 v
  slash : At s.files.slash.2 (rootNode pf)
  granting : s.files.heap.Granting
  stocked : ∀ i, s.made.length ≤ i → i < n → (s.free i).1.files.table = (fun _ => none)
  reserved : ∀ a, Reserved n s a → a ∈ s.files.heap.live
  distinct : ∀ i j a, s.made.length ≤ i → i < j → j < n → (s.free i).1.stack = some a →
    (s.free j).1.stack ≠ some a
  pids : ∀ i, 0 < (s.free i).2

theorem Serving.ready {n : ℕ} (h : Serving pf v n s) (hn : s.made.length < n) :
  s.Ready
  := ⟨h.stocked _ (Nat.le_refl _) hn, fun a ha => h.reserved a ⟨_, Nat.le_refl _, hn, ha⟩⟩

/-- A process that was made for the shell. -/
structure Kid where
  child : Child
  /-- whether it is to run in the background -/
  background : Bool

/-- The blocks of a process that was made. -/
def Kid.blocks (kid : Kid) : Set ℕ := kid.child.proc.blocks

/-- The processes that the shell waits for. -/
def awaited (kids : List Kid) : List ℤ :=
  (kids.filter fun kid => kid.background = false).map fun kid => kid.child.pid

/--
What calls of `kexec` for commands lead to: processes were made for the ones that name a file in
`/bin`.  No two of them have a block in common, and what they have of the blocks from before are
stacks of processes that were on the free list.
-/
structure Spawns (n : ℕ) (v : Node pf) (s : Execv) (cmds : List (Bool × List Name))
    (kids : List Kid) (s' : Execv) : Prop where
  live : ∀ a ∈ s.files.heap.live, a ∈ s'.files.heap.live
  free : s'.free = s.free
  made : s'.made = s.made ++ kids.map Kid.child
  commands : kids.map (fun kid => (kid.background, kid.child.cmd, kid.child.argc, kid.child.argv)) =
    cmds.filterMap fun cmd =>
      (launched v cmd.2).map fun c => (cmd.1, c, min 256 cmd.2.length, cmd.2)
  new : ∀ kid ∈ kids, ∃ p₀ H, NewProc pf p₀ H kid.child.proc
  owned : ∀ kid ∈ kids, ∀ a ∈ kid.blocks, a ∈ s'.files.heap.live ∧ ¬ Reserved n s' a ∧
    (a ∈ s.files.heap.live → Reserved n s a)
  apart : kids.Pairwise fun kid kid' => ∀ a ∈ kid.blocks, a ∉ kid'.blocks

/-- No mount is in the way of the path of a vector. -/
def Unblocked (v : Node pf) (argv : List Name) : Prop :=
  ∀ path ∈ argv.head?, blocked (startNode v path) (pathNames path) = false

/-- The process that the shell waits for when a call returned `r` -/
def waitsFor (r : ℤ) (background : Bool) : List ℤ :=
  if 0 < r ∧ background = false then [r] else []

/-! ### Steps of a run -/

/-- The stacks on the free list were on it before. -/
theorem Reserved.before {n a : ℕ} (h : Reserved n s' a) (hfree : s'.free = s.free)
    (hmade : s.made.length ≤ s'.made.length) :
  Reserved n s a
  := by
  obtain ⟨i, hi, hn, hstack⟩ := h
  exact ⟨i, hmade.trans hi, hn, hfree ▸ hstack⟩

variable {n : ℕ}

theorem Spawns.le {cmds : List (Bool × List Name)} {kids : List Kid}
    (h : Spawns n v s cmds kids s') :
  s.made.length ≤ s'.made.length
  := by
  rw [h.made, List.length_append]
  exact Nat.le_add_right _ _

/-- For every command at most one process is made. -/
theorem Spawns.length_le {cmds : List (Bool × List Name)} {kids : List Kid}
    (h : Spawns n v s cmds kids s') :
  s'.made.length ≤ s.made.length + cmds.length
  := by
  have hkids := congrArg List.length h.commands
  rw [List.length_map] at hkids
  rw [h.made, List.length_append, List.length_map, hkids]
  exact Nat.add_le_add_left (List.length_filterMap_le _ cmds) _

theorem Spawns.refl (n : ℕ) (v : Node pf) (s : Execv) :
  Spawns n v s [] [] s
  := ⟨fun _ => id, rfl, (List.append_nil _).symm, rfl, fun _ h => absurd h List.not_mem_nil,
    fun _ h => absurd h List.not_mem_nil, .nil⟩

theorem Spawns.trans {cmds cmds' : List (Bool × List Name)} {kids kids' : List Kid}
    (h : Spawns n v s cmds kids s') (h' : Spawns n v s' cmds' kids' s'') :
  Spawns n v s (cmds ++ cmds') (kids ++ kids') s''
  where
  live a ha := h'.live a (h.live a ha)
  free := h'.free.trans h.free
  made := by rw [h'.made, h.made, List.map_append, List.append_assoc]
  commands := by rw [List.map_append, h.commands, h'.commands, List.filterMap_append]
  new kid hkid := (List.mem_append.mp hkid).elim (h.new kid) (h'.new kid)
  owned kid hkid a ha := by
    rcases List.mem_append.mp hkid with hkid | hkid
    · obtain ⟨hlive, hnot, hold⟩ := h.owned kid hkid a ha
      exact ⟨h'.live a hlive, fun hr => hnot (hr.before h'.free h'.le), hold⟩
    · obtain ⟨hlive, hnot, hold⟩ := h'.owned kid hkid a ha
      exact ⟨hlive, hnot, fun hs => (hold (h.live a hs)).before h.free h.le⟩
  apart := by
    refine List.pairwise_append.mpr ⟨h.apart, h'.apart, fun kid hkid kid' hkid' a ha ha' => ?_⟩
    -- what an earlier one has is allocated, and is not the stack of one on the free list
    obtain ⟨hlive, hnot, -⟩ := h.owned kid hkid a ha
    exact hnot ((h'.owned kid' hkid' a ha').2.2 hlive)

theorem Spawns.of_none {cmd : Bool × List Name} (hlaunched : launched v cmd.2 = none)
    (hlive : ∀ a ∈ s.files.heap.live, a ∈ s'.files.heap.live) (hfree : s'.free = s.free)
    (hmade : s'.made = s.made) :
  Spawns n v s [cmd] [] s'
  where
  live := hlive
  free := hfree
  made := hmade.trans (List.append_nil _).symm
  commands := by rw [List.filterMap_cons, hlaunched]; rfl
  new _ h := absurd h List.not_mem_nil
  owned _ h := absurd h List.not_mem_nil
  apart := .nil

/-- The blocks from before a call are allocated after it. -/
theorem executes_live {cmd : Option Cmd} {argv : List Name} {r : ℤ}
    (h : Executes pf s cmd argv r s') {a : ℕ} (ha : a ∈ s.files.heap.live) :
  a ∈ s'.files.heap.live
  := by
  have hmade := h.made
  cases cmd with
  | none =>
      obtain ⟨-, -, leaked, -, -, hlive⟩ := hmade
      exact (hlive a).mpr (.inl ha)
  | some cmd =>
      obtain ⟨-, child, -, -, leaked, -, -, hlive⟩ := hmade
      exact (hlive a).mpr (.inl ha)

/-- What `sysexecv` does is one step of a run. -/
theorem Spawns.of_executes {cmd : Bool × List Name} {r : ℤ} (hs : Serving pf v n s)
    (hn : s.made.length < n) (h : Executes pf s (launched v cmd.2) cmd.2 r s') :
  ∃ kids, Spawns n v s [cmd] kids s' ∧ waitsFor r cmd.1 = awaited kids
  := by
  have hlive (a : ℕ) : a ∈ s.files.heap.live → a ∈ s'.files.heap.live := executes_live h
  have hmade := h.made
  cases hcmd : launched v cmd.2 with
  | none =>
      rw [hcmd] at hmade
      obtain ⟨rfl, hmade, -⟩ := hmade
      exact ⟨[], .of_none hcmd hlive h.free hmade, if_neg fun hpos => absurd hpos.1 (by decide)⟩
  | some c =>
      rw [hcmd] at hmade
      obtain ⟨hpid, child, hnew, hmade, leaked, -, -, hblocks⟩ := hmade
      have hpos : 0 < r := hpid ▸ hs.pids s.made.length
      refine ⟨[⟨_, cmd.1⟩], ⟨hlive, h.free, hmade, ?_, ?_, ?_, List.pairwise_singleton _ _⟩, ?_⟩
      · rw [List.filterMap_cons, hcmd]
        rfl
      · intro kid hkid
        rw [List.mem_singleton.mp hkid]
        exact ⟨_, _, hnew⟩
      · intro kid hkid a ha
        rw [List.mem_singleton.mp hkid] at ha
        refine ⟨(hblocks a).mpr (.inr (.inl ha)), ?_, fun hold => ?_⟩
        · rintro ⟨i, hi, hin, hstack⟩
          rw [hmade, List.length_append] at hi
          rw [h.free] at hstack
          have hlt : s.made.length < i := hi
          have hreserved : Reserved n s a := ⟨i, hlt.le, hin, hstack⟩
          exact hs.distinct _ i a (Nat.le_refl _) hlt hin (hnew.new a ha (hs.reserved a hreserved))
            hstack
        · exact ⟨_, Nat.le_refl _, hn, hnew.new a ha hold⟩
      · rw [waitsFor, awaited]
        cases cmd.1 with
        | true => exact if_neg fun hwait => Bool.noConfusion hwait.2
        | false => exact if_pos ⟨hpos, rfl⟩

/-- After a call the rest of the free list is as it was. -/
theorem Serving.executes {cmd : Option Cmd} {argv : List Name} {r : ℤ} (h : Serving pf v n s)
    (hexec : Executes pf s cmd argv r s') :
  Serving pf v n s'
  := by
  have hlength : s.made.length ≤ s'.made.length := by
    have hmade := hexec.made
    cases cmd with
    | none => exact (congrArg List.length hmade.2.1).ge
    | some cmd =>
        obtain ⟨-, child, -, hmade, -⟩ := hmade
        rw [hmade, List.length_append]
        exact Nat.le_add_right _ _
  refine ⟨hexec.dot ▸ h.dot, hexec.slash ▸ h.slash, hexec.granting, fun i hi => ?_, fun a ha => ?_,
    fun i j a hi => ?_, hexec.free ▸ h.pids⟩
  · rw [hexec.free]
    exact h.stocked i (hlength.trans hi)
  · exact executes_live hexec (h.reserved a (ha.before hexec.free hlength))
  · rw [hexec.free]
    exact h.distinct i j a (hlength.trans hi)

/-- One call makes at most one process, and the shell waits for it unless it is not to. -/
theorem serve_spawns (hm : v.isMount = false) (h : Serving pf v n s) (hn : s.made.length < n)
    {cmd : Bool × List Name} (hopen : Unblocked v cmd.2) :
  Returns s (serve pf hw fileInfo (cmd.2.head?, cmd.2)) fun r s' =>
    Serving pf v n s' ∧ ∃ kids, Spawns n v s [cmd] kids s' ∧ waitsFor r cmd.1 = awaited kids
  := by
  cases hpath : cmd.2.head? with
  | none =>
      refine ⟨-1, { s with errno := .einval }, rfl, { h with }, [],
        .of_none ?_ (fun _ => id) rfl rfl, ?_⟩
      · rw [launched, hpath]
        rfl
      · exact if_neg fun hpos => absurd hpos.1 (by decide)
  | some path =>
      have hlaunched : launched v cmd.2 = (executed v path).bind Node.command := by
        rw [launched, hpath]
        rfl
      have hreturns := sysexecv_returns h.dot hm h.slash h.granting (h.ready hn)
        (hopen path hpath) hw fileInfo cmd.2
      rw [← hlaunched] at hreturns
      exact hreturns.mono fun r s' hexec => ⟨h.executes hexec, Spawns.of_executes h hn hexec⟩

/-! ### Sessions -/

/-- The process of a call of `waitpid` -/
def ShellEvent.waited : ShellEvent → Option ℤ
  | .waitpid pid => some pid
  | _ => none

/-- The kernel, which started in `s`, served what the shell did for the commands. -/
structure Served (n : ℕ) (pf : Platform) (hw : Hardware) (fileInfo : ℕ → Byte) (v : Node pf)
    (s : Execv) (done : List ShellEvent) (cmds : List (Bool × List Name)) (kids : List Kid)
    (s' : Execv) : Prop where
  served : ∃ rs, kernel pf hw fileInfo done s = .done rs s'
  spawns : Spawns n v s cmds kids s'
  waits : done.filterMap ShellEvent.waited = awaited kids

variable {done : List ShellEvent} {cmds : List (Bool × List Name)} {kids : List Kid}

theorem awaited_append (kids kids' : List Kid) :
  awaited (kids ++ kids') = awaited kids ++ awaited kids'
  := by rw [awaited, List.filter_append, List.map_append, awaited, awaited]

theorem perform_eq (pid : List ShellEvent → ℤ) (done : List ShellEvent)
    (words : List (List Byte)) :
  perform pid done words = done ++ [.kexec (commandOf words).2.head? (commandOf words).2] ++
    (waitsFor (pid (done ++ [.kexec (commandOf words).2.head? (commandOf words).2]))
      (commandOf words).1).map ShellEvent.waitpid
  := by
  rw [perform, waitsFor]
  split
  · rfl
  · exact (List.append_nil _).symm

theorem kernel_append {events : List ShellEvent} (h : events.filterMap ShellEvent.called = []) :
  kernel pf hw fileInfo (done ++ events) = kernel pf hw fileInfo done
  := by rw [kernel, List.filterMap_append, h, List.append_nil, kernel]

theorem called_waitpids (pids : List ℤ) :
  (pids.map ShellEvent.waitpid).filterMap ShellEvent.called = []
  := by
  rw [List.filterMap_map]
  exact List.filterMap_eq_nil_iff.mpr fun _ _ => rfl

theorem waited_waitpids (pids : List ℤ) :
  (pids.map ShellEvent.waitpid).filterMap ShellEvent.waited = pids
  := by
  rw [List.filterMap_map]
  exact List.filterMap_some

/-- The kernel serves a line that is read. -/
theorem Served.line (h : Served n pf hw fileInfo v s done cmds kids s') (text : List Byte) :
  Served n pf hw fileInfo v s (done ++ [ShellEvent.line text]) cmds kids s'
  := by
  refine ⟨?_, h.spawns, ?_⟩
  · rw [kernel_append rfl]
    exact h.served
  · rw [List.filterMap_append]
    exact (List.append_nil _).trans h.waits

/-- The kernel serves a command that is executed. -/
theorem Served.perform (hm : v.isMount = false) (h : Served n pf hw fileInfo v s done cmds kids s')
    (hs' : Serving pf v n s') {words : List (List Byte)}
    (hroom : s.made.length + (cmds ++ [commandOf words]).length ≤ n)
    (hopen : Unblocked v (commandOf words).2) :
  ∃ kids' s'', Serving pf v n s'' ∧
    Served n pf hw fileInfo v s (perform (answer pf hw fileInfo s) done words)
      (cmds ++ [commandOf words]) kids' s''
  := by
  obtain ⟨rs, hkernel⟩ := h.served
  have hn : s'.made.length < n := by
    have hlength := h.spawns.length_le
    rw [List.length_append, List.length_singleton] at hroom
    omega
  have hserves : Returns s' (serve pf hw fileInfo ((commandOf words).2.head?, (commandOf words).2))
      _ := serve_spawns hm hs' hn hopen
  obtain ⟨r, s'', hserve, hs'', kids', hkids', hwaits⟩ := hserves
  have hcalled : kernel pf hw fileInfo
      (done ++ [.kexec (commandOf words).2.head? (commandOf words).2]) s =
        .done (rs ++ [r]) s'' := by
    rw [kernel, List.filterMap_append]
    exact calls_concat hkernel hserve
  have hanswer : answer pf hw fileInfo s
      (done ++ [.kexec (commandOf words).2.head? (commandOf words).2]) = r := by
    rw [answer, hcalled]
    dsimp only
    rw [List.getLast?_append]
    rfl
  refine ⟨kids ++ kids', s'', hs'', ?_, h.spawns.trans hkids', ?_⟩
  · rw [perform_eq, kernel_append (called_waitpids _)]
    exact ⟨_, hcalled⟩
  · rw [perform_eq, hanswer, List.filterMap_append, List.filterMap_append, waited_waitpids, h.waits,
      awaited_append, hwaits]
    exact congrArg (· ++ _) (List.append_nil _)

/-- The kernel serves the commands that a line completes. -/
theorem Served.performAll (hm : v.isMount = false) {texts : List (List (List Byte))}
    (h : Served n pf hw fileInfo v s done cmds kids s') (hs' : Serving pf v n s')
    (hroom : s.made.length + (cmds ++ texts.map commandOf).length ≤ n)
    (hopen : ∀ words ∈ texts, Unblocked v (commandOf words).2) :
  ∃ kids' s'', Serving pf v n s'' ∧
    Served n pf hw fileInfo v s (texts.foldl (Torgo.perform (answer pf hw fileInfo s)) done)
      (cmds ++ texts.map commandOf) kids' s''
  := by
  induction texts generalizing done cmds kids s' with
  | nil =>
      rw [List.map_nil, List.append_nil]
      exact ⟨kids, s', hs', h⟩
  | cons words texts ih =>
      rw [List.map_cons, List.append_cons] at hroom ⊢
      have hfirst : s.made.length + (cmds ++ [commandOf words]).length ≤ n := by
        simp only [List.length_append] at hroom ⊢
        omega
      obtain ⟨kids₁, s₁, hs₁, h₁⟩ := h.perform hm hs' hfirst (hopen words List.mem_cons_self)
      exact ih h₁ hs₁ hroom fun w hw => hopen w (List.mem_cons_of_mem _ hw)

/-- The kernel serves the commands of all lines. -/
theorem Served.performs (hm : v.isMount = false) {lines : List (List Byte)} {sc : Scan}
    (h : Served n pf hw fileInfo v s done cmds kids s') (hs' : Serving pf v n s')
    (hroom : s.made.length +
      (cmds ++ (scanner.run sc lines.flatten).2.map commandOf).length ≤ n)
    (hopen : ∀ words ∈ (scanner.run sc lines.flatten).2, Unblocked v (commandOf words).2) :
  ∃ kids' s'', Serving pf v n s'' ∧
    Served n pf hw fileInfo v s (Torgo.performs (answer pf hw fileInfo s) sc done lines)
      (cmds ++ (scanner.run sc lines.flatten).2.map commandOf) kids' s''
  := by
  induction lines generalizing sc done cmds kids s' with
  | nil => exact ⟨kids, s', hs', (List.append_nil cmds).symm ▸ h⟩
  | cons line lines ih =>
      rw [List.flatten_cons, Transducer.run_append] at hroom hopen ⊢
      rw [List.map_append, ← List.append_assoc] at hroom ⊢
      have hfirst : s.made.length +
          (cmds ++ (scanner.run sc line).2.map commandOf).length ≤ n := by
        simp only [List.length_append] at hroom ⊢
        omega
      obtain ⟨kids₁, s₁, hs₁, h₁⟩ := (h.line line).performAll hm hs' hfirst fun words hwords =>
        hopen words (List.mem_append_left _ hwords)
      exact ih h₁ hs₁ hroom fun words hwords => hopen words (List.mem_append_right _ hwords)

/--
The kernel serves a session: the processes that were made are those of the commands in the text that
was typed, in their order, however it is divided into lines; no two of them have a block in common;
and the shell has waited for those that were not to run in the background, and for no other one.
-/
theorem torgo_launches (hw : Hardware) (fileInfo : ℕ → Byte) (greeting : List Byte)
    (hm : v.isMount = false) {t : Session} (hevents : t.events = [])
    (hs : Serving pf v (s.made.length + (sessionCommands t.shell.input).length) s)
    (hexpands : ∀ words ∈ sessionCommands t.shell.input, Expands words)
    (hopen : ∀ words ∈ sessionCommands t.shell.input, Unblocked v (commandOf words).2) :
  ∃ k₀, ∀ k, k₀ ≤ k → Returns t (torgo_main (answer pf hw fileInfo s) greeting k) fun r t' =>
    r = 0 ∧ t'.state = .eof ∧ ∃ kids s',
      Served (s.made.length + (sessionCommands t.shell.input).length) pf hw fileInfo v s t'.events
        ((sessionCommands t.shell.input).map commandOf) kids s'
  := by
  refine ((torgo_main_settles _ greeting t hexpands).mono ?_).returns
  rintro r t' ⟨hr, hend, hdone, -⟩
  have hstart : Served (s.made.length + (sessionCommands t.shell.input).length) pf hw fileInfo v s
      t.events [] [] s := by
    rw [hevents]
    exact ⟨⟨[], rfl⟩, .refl _ v s, rfl⟩
  have hroom : s.made.length + ([] ++ (sessionCommands t.shell.input).map commandOf).length ≤
      s.made.length + (sessionCommands t.shell.input).length := by
    rw [List.nil_append, List.length_map]
  obtain ⟨kids, s', -, hserved⟩ := hstart.performs hm hs hroom hopen
  rw [hdone]
  exact ⟨hr, hend, kids, s', hserved⟩

theorem commandOf_ls :
  commandOf [[0x6c, 0x73]] = (false, [text "ls"]) ∧
    commandOf [[0x70, 0x73, 0x26]] = (true, [text "ps"])
  := by
  constructor
  · rw [commandOf, List.map_cons, List.map_nil, expandVars_literal (by decide),
      expandVars_literal (by decide), expandVars_nil]
    decide
  · rw [commandOf, List.map_cons, List.map_nil, expandVars_literal (by decide),
      expandVars_literal (by decide), expandVars_literal (by decide), expandVars_nil]
    decide

/-- The text `ls;ps&` and the return key, and then the end of file. -/
theorem torgo_launches_ls :
  ∃ k r t' kids s', torgo_main (answer .k70cw quietHardware (fun _ => 0)
        ⟨freshFiles, .ok, fun n => (freshProc, n + 2), []⟩) [] k
      ⟨⟨[0x6c, 0x73, 0x3b, 0x70, 0x73, 0x26, 0x0d], [], mkCharBuf 32⟩, mkParser, Env.empty, .run,
        []⟩ = .done r t' ∧
    Served 2 .k70cw quietHardware (fun _ => 0) (rootNode .k70cw)
      ⟨freshFiles, .ok, fun n => (freshProc, n + 2), []⟩ t'.events
      [(false, [text "ls"]), (true, [text "ps"])] kids s' ∧
    kids.map (fun kid => (kid.background, kid.child.cmd)) = [(false, .ls), (true, .ps)]
  := by
  obtain ⟨hls, hps⟩ := commandOf_ls
  have hserving (n : ℕ) : Serving .k70cw (rootNode .k70cw) n
      ⟨freshFiles, .ok, fun n => (freshProc, n + 2), []⟩ :=
    ⟨at_slash .k70cw, at_slash .k70cw, ⟨fun _ => rfl, by decide⟩, fun _ _ _ => rfl,
      fun a ⟨i, _, _, h⟩ => absurd h.symm (Option.some_ne_none a),
      fun i j a _ _ _ h => absurd h.symm (Option.some_ne_none a),
      fun i => by
        change (0 : ℤ) < (i : ℤ) + 2
        omega⟩
  have hopen : ∀ words ∈ sessionCommands [0x6c, 0x73, 0x3b, 0x70, 0x73, 0x26, 0x0d],
      Unblocked (rootNode .k70cw) (commandOf words).2 := by
    rw [sessionCommands_ls]
    intro words hwords path hpath
    rcases List.mem_cons.mp hwords with rfl | hwords
    · rw [hls] at hpath
      rw [← Option.some.inj hpath]
      decide
    · rw [List.mem_singleton.mp hwords, hps] at hpath
      rw [← Option.some.inj hpath]
      decide
  obtain ⟨k, hk⟩ := torgo_launches quietHardware (fun _ => 0) [] (rootNode_not_isMount .k70cw)
    (t := ⟨⟨[0x6c, 0x73, 0x3b, 0x70, 0x73, 0x26, 0x0d], [], mkCharBuf 32⟩, mkParser, Env.empty,
      .run, []⟩) rfl (hserving _) expands_ls hopen
  obtain ⟨r, t', hrun, -, -, kids, s', hserved⟩ := hk k (Nat.le_refl k)
  have hcmds : (sessionCommands [0x6c, 0x73, 0x3b, 0x70, 0x73, 0x26, 0x0d]).map commandOf =
      [(false, [text "ls"]), (true, [text "ps"])] := by
    rw [sessionCommands_ls, List.map_cons, List.map_cons, List.map_nil, hls, hps]
  rw [hcmds, sessionCommands_ls] at hserved
  have hlaunched : launched (rootNode .k70cw) [text "ls"] = some .ls ∧
      launched (rootNode .k70cw) [text "ps"] = some .ps := by decide +kernel
  refine ⟨k, r, t', kids, s', hrun, hserved, ?_⟩
  have hkids := congrArg (List.map fun x => (x.1, x.2.1)) hserved.spawns.commands
  rw [List.filterMap_cons, hlaunched.1, List.map_map] at hkids
  refine hkids.trans ?_
  rw [List.filterMap_cons, hlaunched.2]
  rfl

end Torgo
