import Manos.Process.Switch

/-!
# A processor for every process

The runs of any number of processes on one processor, with the scheduler.  To each process it looks
as if it had a processor and a stack of its own: the context switch changes neither.
-/

namespace Process

open Exec Armv7m

/-! ### Stacks -/

/-- The stack of `main`, and those that `newProc` allocates, with a canary on each side. -/
structure Stacks (ι : Type) where
  main : ℕ
  mainTop : ℕ
  stack : ι → ℕ
  aligned : ∀ i, stack i % 4 = 0
  low : ∀ i, 8 ≤ stack i
  high : ∀ i, stack i + stackSize + 8 ≤ 2 ^ 32
  mainHigh : mainTop ≤ 2 ^ 32
  apart : ∀ i j, i ≠ j →
    stack i + stackSize + 16 ≤ stack j ∨ stack j + stackSize + 16 ≤ stack i
  mainApart : ∀ i, mainTop + 8 ≤ stack i ∨ stack i + stackSize + 8 ≤ main

namespace Stacks

variable {ι : Type} (S : Stacks ι)

/-- The start of a stack. -/
def bottom : Option ι → ℕ
  | none => S.main
  | some i => S.stack i

/-- The end of a stack. -/
def top : Option ι → ℕ
  | none => S.mainTop
  | some i => S.stack i + stackSize

/-- Whether an address is in a stack. -/
def In (k : Option ι) (x : ℕ) : Prop := S.bottom k ≤ x ∧ x < S.top k

/-- `*p->canary1 == *p->canary2` -/
def CanariesEqual (mem : ℕ → Word) (i : ι) : Prop :=
  mem (S.stack i - 8) = mem (S.stack i + stackSize) ∧
    mem (S.stack i - 4) = mem (S.stack i + stackSize + 4)

instance (mem : ℕ → Word) (i : ι) : Decidable (S.CanariesEqual mem i) := instDecidableAnd

/-- The addresses of the canaries. -/
def Canary (i : ι) (x : ℕ) : Prop :=
  x + 8 = S.stack i ∨ x + 4 = S.stack i ∨ x = S.stack i + stackSize ∨ x = S.stack i + stackSize + 4

/-- The memory once `newProc` has allocated a stack; the canary is `0xdecade0fc0ffecab`. -/
def newStack (i : ι) (mem : ℕ → Word) (x : ℕ) : Word :=
  if x + 8 = S.stack i ∨ x = S.stack i + stackSize then 0xc0ffecab
  else if x + 4 = S.stack i ∨ x = S.stack i + stackSize + 4 then 0xdecade0f
  else if S.stack i ≤ x ∧ x < S.stack i + stackSize then 0
  else mem x

variable {S} {k k' : Option ι} {x : ℕ} {mem mem' : ℕ → Word} {i j : ι}

theorem In.unique (h : S.In k x) (h' : S.In k' x) :
  k = k'
  := by
  obtain ⟨h₁, h₂⟩ := h
  obtain ⟨h₁', h₂'⟩ := h'
  cases k with
  | none =>
      cases k' with
      | none => rfl
      | some j =>
          simp only [bottom, top] at h₁ h₂ h₁' h₂'
          have := S.mainApart j
          omega
  | some i =>
      cases k' with
      | none =>
          simp only [bottom, top] at h₁ h₂ h₁' h₂'
          have := S.mainApart i
          omega
      | some j =>
          simp only [bottom, top] at h₁ h₂ h₁' h₂'
          by_contra hne
          have := S.apart i j fun h => hne (by rw [h])
          omega

/-- The canaries are in no stack. -/
theorem Canary.not_in (h : S.Canary i x) (k : Option ι) :
  ¬ S.In k x
  := by
  rintro ⟨h₁, h₂⟩
  have hsize : stackSize = 32768 := rfl
  rw [Canary] at h
  cases k with
  | none =>
      simp only [bottom, top] at h₁ h₂
      have := S.mainApart i
      omega
  | some j =>
      simp only [bottom, top] at h₁ h₂
      by_cases hij : i = j
      · subst hij
        omega
      · have := S.apart i j hij
        omega

theorem Canary.unique (h : S.Canary i x) (h' : S.Canary j x) :
  i = j
  := by
  by_contra hne
  have hsize : stackSize = 32768 := rfl
  have := S.apart i j hne
  rw [Canary] at h h'
  omega

theorem CanariesEqual.congr (h : S.CanariesEqual mem i)
    (hs : ∀ x, S.Canary i x → mem' x = mem x) :
  S.CanariesEqual mem' i
  := by
  have hlow := S.low i
  rw [CanariesEqual, hs _ (by rw [Canary]; omega), hs _ (by rw [Canary]; omega),
    hs _ (by rw [Canary]; omega), hs _ (by rw [Canary]; omega)]
  exact h

theorem newStack_canaries (S : Stacks ι) (i : ι) (mem : ℕ → Word) :
  S.CanariesEqual (S.newStack i mem) i
  := by
  have hlow := S.low i
  have hsize : stackSize = 32768 := rfl
  constructor
  · rw [newStack, if_pos (by omega), newStack, if_pos (by omega)]
  · rw [newStack, if_neg (by omega), if_pos (by omega), newStack, if_neg (by omega),
      if_pos (by omega)]

theorem newStack_outside (hx : ¬ S.In (some i) x) (hc : ¬ S.Canary i x) :
  S.newStack i mem x = mem x
  := by
  rw [Canary] at hc
  rw [newStack, if_neg (by omega), if_neg (by omega)]
  exact if_neg hx

theorem bottom_some (S : Stacks ι) (i : ι) :
  S.bottom (some i) = S.stack i
  := rfl

theorem top_le (S : Stacks ι) (k : Option ι) :
  S.top k ≤ 2 ^ 32
  := by
  cases k with
  | none => exact S.mainHigh
  | some i =>
      have := S.high i
      rw [top]
      omega

end Stacks

/-! ### The scheduler -/

/-- The processor, `rp` (at first `NULL`, while `main` runs), and `p->sp` of the processes. -/
structure Switching (ι : Type) where
  machine : Machine
  rp : Option ι
  /-- there is none for a process that was not started, or was recycled -/
  sp : ι → Option ℕ
  /-- whether `p->stack` is not `NULL` -/
  allocated : ι → Bool

section

variable {ι : Type}

/-- A program on the processor. -/
def onMachine {α : Type} (x : Exec Machine α) : Exec (Switching ι) α :=
  onPart Switching.machine (fun m s => ⟨m, s.rp, s.sp, s.allocated⟩) x

/-- The processor after a call of `scheduleProc`, with what it leaves in memory. -/
def Machine.called (m : Machine) (ret : ℕ) (scratch : Fin 13 → Word) (mem : ℕ → Word) : Machine :=
  ⟨⟨fun k => if k = 0 then BitVec.ofNat 32 ret else if k ∈ stacked then scratch k else m.core.r k,
      m.core.sp, m.core.lr, m.core.pc, m.core.xpsr⟩, m.shcsr, mem⟩

variable [DecidableEq ι] (S : Stacks ι)

/-- The part of `scheduleProc` for the process that was running. -/
def leaveRunning : Exec (Switching ι) Unit := do
  let s ← get
  let sp := (s.machine.core.r 0).toNat
  match s.rp with
  | none => pure ()
  | some i => do
      assert (S.CanariesEqual s.machine.mem i)
        "scheduleProc() old proc canaries are not equal"
      assert (sp < S.top (some i)) "scheduleProc() old proc sp below canary"
      modify fun s => ⟨s.machine, s.rp, Function.update s.sp i (some sp), s.allocated⟩

/--
`scheduleProc`, when the processes `dead` are recycled and `next` is found; `scratch` and `mem` are
what it leaves in registers and in memory.
-/
def scheduleProc (next : ι) (dead : ι → Bool) (scratch : Fin 13 → Word) (mem : ℕ → Word) :
    Exec (Switching ι) Unit := do
  leaveRunning S
  modify fun s =>
    ⟨s.machine, some next, fun j => if dead j then none else s.sp j, s.allocated⟩
  let s ← get
  match s.sp next with
  | none => fault (.null "sp")
  | some sp => do
      assert (S.CanariesEqual mem next) "scheduleProc() new proc canaries are not equal"
      assert (sp < S.top (some next)) "scheduleProc() new proc sp below canary"
      modify fun s => ⟨Machine.called s.machine sp scratch mem, s.rp, s.sp, s.allocated⟩

/-- `p->sp` of the processes once the running one was left, and some were recycled. -/
def Switching.left (s : Switching ι) (dead : ι → Bool) (j : ι) : Option ℕ :=
  if dead j then none
  else if s.rp = some j then some (s.machine.core.r 0).toNat else s.sp j

variable {S} {s : Switching ι} {next : ι} {dead : ι → Bool} {scratch : Fin 13 → Word}
  {mem : ℕ → Word}

/-- What `scheduleProc` asserts of the process that runs. -/
def Switching.OldFits (S : Stacks ι) (s : Switching ι) : Prop :=
  ∀ i, s.rp = some i → S.CanariesEqual s.machine.mem i ∧
    (s.machine.core.r 0).toNat < S.top (some i)

theorem leaveRunning_returns (hold : s.OldFits S) (dead : ι → Bool) :
  Returns s (leaveRunning S) fun _ t => t.machine = s.machine ∧
    t.allocated = s.allocated ∧ ∀ j, (if dead j then none else t.sp j) = s.left dead j
  := by
  refine .get ?_
  cases hrp : s.rp with
  | none =>
      refine .pure ⟨rfl, rfl, fun j => ?_⟩
      rw [Switching.left, hrp, if_neg (c := none = some j) nofun]
  | some i =>
      obtain ⟨hcanary, htop⟩ := hold i hrp
      refine .assert hcanary (.assert htop ⟨(), _, rfl, rfl, rfl, fun j => ?_⟩)
      rw [Switching.left, hrp]
      by_cases hj : i = j
      · subst hj
        rw [if_pos (c := some i = some i) rfl]
        dsimp only
        rw [Function.update_self]
      · rw [if_neg (c := some i = some j) (by simpa using hj)]
        dsimp only
        rw [Function.update_of_ne (Ne.symm hj)]

/-- `scheduleProc` returns the stack pointer of the process that it has found. -/
theorem scheduleProc_returns {sp : ℕ} (hold : s.OldFits S)
    (hnext : s.left dead next = some sp) (hcanary : S.CanariesEqual mem next)
    (htop : sp < S.top (some next)) :
  Returns s (scheduleProc S next dead scratch mem) fun _ s' =>
    s' = ⟨Machine.called s.machine sp scratch mem, some next, s.left dead, s.allocated⟩
  := by
  refine .bind (leaveRunning_returns hold dead) ?_
  rintro - t ⟨hmachine, halloc, hsp⟩
  refine .modify fun t' ht' => .get ?_
  have hleft : t'.sp = s.left dead := by
    rw [ht']
    exact funext hsp
  rw [hleft, hnext]
  refine .assert hcanary (.assert htop ⟨(), _, rfl, ?_⟩)
  dsimp only
  rw [hleft, ht', hmachine, halloc]

/-- `scheduleProc` does not find a process that has no frame. -/
theorem scheduleProc_done {s' : Switching ι} (hold : s.OldFits S)
    (h : scheduleProc S next dead scratch mem s = .done () s') :
  ∃ sp, s.left dead next = some sp
  := by
  cases hnext : s.left dead next with
  | some sp => exact ⟨sp, rfl⟩
  | none =>
      have hstop : Stops s (scheduleProc S next dead scratch mem) (.null "sp") fun _ => True := by
        refine .bind (leaveRunning_returns hold dead) ?_
        rintro - t ⟨hmachine, halloc, hsp⟩
        refine .step (modify_apply _ _) (.step (get_apply _) ?_)
        dsimp only
        rw [hsp, hnext]
        exact ⟨_, rfl, trivial⟩
      exact absurd ⟨(), s', h, trivial⟩ (hstop.not_returns (Q := fun _ _ => True))

end

/-! ### The processes on one processor -/

/-- What happens, with what a process has of the processor and of memory after it. -/
inductive SwitchEvent (ι : Type) where
  /-- the process that runs goes on -/
  | own (c : Cpu) (mem : ℕ → Word)
  /-- it calls `schedProc`, which starts a process -/
  | spawn (i : ι) (cmd argc argv : Word)
  /-- the scheduler recycles processes and switches to one -/
  | switch (i : ι) (dead : ι → Bool)

/-- The parts of the platform that the context switch depends on. -/
structure Platform (ι : Type) extends Stacks ι where
  handlers : Handlers
  stkalign : Bool
  manosExit : Word

section

variable {ι : Type} [DecidableEq ι] {P : Platform ι}

/-- A process stays on its stack, and leaves room for the handler. -/
structure Cpu.Fits (P : Platform ι) (k : Option ι) (c : Cpu) : Prop where
  coherent : c.Coherent
  room : P.bottom k + handlerRoom ≤ c.core.sp
  top : c.core.sp ≤ P.top k

/-- What a process writes is not below the stack pointer of another one, in its frame. -/
def SparesFrames (P : Platform ι) (s : Switching ι) (mem : ℕ → Word) : Prop :=
  ∀ i sp d, some i ≠ s.rp → s.sp i = some sp →
    Saved P.handlers P.stkalign s.machine.mem sp d →
    ∀ x, sp ≤ x → x < d.core.sp → mem x = s.machine.mem x

/--
What `scheduleProc` leaves in memory: on the stacks it changes only what is below the stack pointer
that it was called with.
-/
def SparesStacks (P : Platform ι) (k : Option ι) (m : Machine) (mem : ℕ → Word) : Prop :=
  ∀ k' x, P.In k' x → k' ≠ k ∨ m.core.sp ≤ x → mem x = m.mem x

/-- Canaries that were equal still are. -/
def SparesCanaries (P : Platform ι) (mem mem' : ℕ → Word) : Prop :=
  ∀ i, P.CanariesEqual mem i → P.CanariesEqual mem' i

/-- From the call of `scheduleProc` on. -/
def scheduleRest (P : Platform ι) (next : ι) (dead : ι → Bool) (scratch : Fin 13 → Word)
    (mem : ℕ → Word) : Exec (Switching ι) Unit := do
  scheduleProc P.toStacks next dead scratch mem
  onMachine (interruptRestore P.handlers P.stkalign)

/-- What `newProc` and `setupStack` do for a process. -/
def Switching.spawned (P : Platform ι) (s : Switching ι) (i : ι) (cmd argc argv : Word) :
    Switching ι :=
  let mem := if s.allocated i then s.machine.mem else P.newStack i s.machine.mem
  let stack := setupStack P.manosExit cmd argc argv (P.stack i) mem
  ⟨⟨s.machine.core, s.machine.shcsr, stack.1⟩, s.rp, Function.update s.sp i (some stack.2),
    Function.update s.allocated i true⟩

/--
The steps.  Assumed of the process that runs: it stays on its stack with room for the 136 bytes of the
handler, and spares the frames of the others and the canaries.  Assumed of `scheduleProc`: it changes
stacks only below its stack pointer, and spares the canaries.  Its signals and queues are left out: which
process is next and which ones are dead is a part of the event.
-/
inductive SwitchStep (P : Platform ι) (s : Switching ι) :
    SwitchEvent ι → Switching ι → Prop where
  | own {c : Cpu} {mem : ℕ → Word} (hc : c.Fits P s.rp) (hframes : SparesFrames P s mem)
      (hcanaries : SparesCanaries P s.machine.mem mem) :
      SwitchStep P s (.own c mem)
        ⟨⟨c.core, (if c.svc then svcallactMask else 0) ||| (s.machine.shcsr &&& ~~~ svcallactMask),
          mem⟩, s.rp, s.sp, s.allocated⟩
  | spawn {i : ι} {cmd argc argv : Word} (hi : s.sp i = none) (hrp : s.rp ≠ some i) :
      SwitchStep P s (.spawn i cmd argc argv) (s.spawned P i cmd argc argv)
  | switch {e : Exception} {body scratch : Fin 13 → Word} {m : Machine} {mem : ℕ → Word} {next : ι}
      {dead : ι → Bool} {s' : Switching ι} (he : e ≠ .svCall)
      (hbody : WrapperBody (P.handlers.wrapper e) s.machine.core.r body)
      (hsave : interruptSave P.handlers P.stkalign e body s.machine = .done () m)
      (hstacks : SparesStacks P s.rp m mem) (hcanaries : SparesCanaries P m.mem mem)
      (hrun : scheduleRest P next dead scratch mem ⟨m, s.rp, s.sp, s.allocated⟩ = .done () s') :
      SwitchStep P s (.switch next dead) s'

/-! ### The processes on processors of their own -/

/-- A processor for `main` and for each process that was started, and the memory. -/
structure Processors (ι : Type) where
  rp : Option ι
  cpu : Option ι → Option Cpu
  mem : ℕ → Word

/-- The processors that are left when `main` and the recycled processes are gone. -/
def Processors.left (a : Processors ι) (dead : ι → Bool) : Option ι → Option Cpu
  | none => none
  | some i => if dead i then none else a.cpu (some i)

/-- The steps: no process changes the processor of another one, and the scheduler changes none. -/
inductive ProcessorStep (P : Platform ι) (a : Processors ι) :
    SwitchEvent ι → Processors ι → Prop where
  | own {c : Cpu} {mem : ℕ → Word} :
      ProcessorStep P a (.own c mem) ⟨a.rp, Function.update a.cpu a.rp (some c), mem⟩
  | spawn {i : ι} {cmd argc argv : Word} (hi : a.cpu (some i) = none) :
      ProcessorStep P a (.spawn i cmd argc argv)
        ⟨a.rp, Function.update a.cpu (some i)
          (some (Cpu.start P.manosExit cmd argc argv (P.stack i))), a.mem⟩
  | switch {next : ι} {dead : ι → Bool} (hnext : a.left dead (some next) ≠ none) :
      ProcessorStep P a (.switch next dead) ⟨some next, a.left dead, a.mem⟩

/-! ### The simulation -/

/-- What there is of a process that does not run: a frame on its stack, or nothing. -/
inductive Framed (P : Platform ι) (mem : ℕ → Word) (i : ι) : Option ℕ → Option Cpu → Prop where
  | absent : Framed P mem i none none
  | frame {sp : ℕ} {c : Cpu} (h : Saved P.handlers P.stkalign mem sp c) (hsp : P.stack i ≤ sp) :
      Framed P mem i (some sp) (some c)

/-- The processors that the processes seem to have. -/
structure Represents (P : Platform ι) (s : Switching ι) (a : Processors ι) : Prop where
  rp : a.rp = s.rp
  running : a.cpu s.rp = some ⟨s.machine.core, s.machine.active .svCall⟩
  fits : ∀ k c, a.cpu k = some c → c.Fits P k
  waiting : ∀ i, some i ≠ s.rp → Framed P s.machine.mem i (s.sp i) (a.cpu (some i))
  main : s.rp ≠ none → a.cpu none = none
  idle : ∀ e, e ≠ .svCall → s.machine.active e = false
  mem : ∀ k c, a.cpu k = some c → ∀ x, c.core.sp ≤ x → x < P.top k → s.machine.mem x = a.mem x
  allocated : ∀ i, a.cpu (some i) ≠ none → s.allocated i = true
  canaries : ∀ i, s.allocated i = true → P.CanariesEqual s.machine.mem i

variable {s s' : Switching ι} {a : Processors ι} {mem mem' : ℕ → Word} {i : ι}

omit [DecidableEq ι] in
theorem Framed.congr {sp : Option ℕ} {c : Option Cpu} (h : Framed P mem i sp c)
    (hs : ∀ sp' c', sp = some sp' → c = some c' → P.stack i ≤ sp' →
      Saved P.handlers P.stkalign mem sp' c' → ∀ x, sp' ≤ x → x < c'.core.sp → mem' x = mem x) :
  Framed P mem' i sp c
  := by
  cases h with
  | absent => exact .absent
  | frame h hsp => exact .frame (h.congr (hs _ _ rfl rfl hsp h)) hsp

/-- The simulation of a step of the process that runs. -/
theorem Represents.own (h : Represents P s a) {c : Cpu} (hc : c.Fits P s.rp)
    (hframes : SparesFrames P s mem) (hcanaries : SparesCanaries P s.machine.mem mem) :
  Represents P
    ⟨⟨c.core, (if c.svc then svcallactMask else 0) ||| (s.machine.shcsr &&& ~~~ svcallactMask),
      mem⟩, s.rp, s.sp, s.allocated⟩
    ⟨a.rp, Function.update a.cpu a.rp (some c), mem⟩
  := by
  have hactive (e : Exception) := restored_active c.svc s.machine.shcsr e
  refine ⟨h.rp, ?_, fun k c' hk => ?_, fun i hi => ?_, fun hne => ?_, fun e he => ?_,
    fun _ _ _ _ _ _ => rfl, fun i hi => ?_, fun i hi => hcanaries i (h.canaries i hi)⟩
  · dsimp only
    rw [h.rp, Function.update_self, Machine.active, hactive, if_pos rfl]
  · dsimp only at hk
    by_cases hkr : k = a.rp
    · rw [hkr, Function.update_self] at hk
      cases hk
      rw [hkr, h.rp]
      exact hc
    · rw [Function.update_of_ne hkr] at hk
      exact h.fits k c' hk
  · dsimp only
    rw [h.rp, Function.update_of_ne hi]
    refine (h.waiting i hi).congr fun sp d hsp _ _ hs x h₁ h₂ => ?_
    exact hframes i sp d hi hsp hs x h₁ h₂
  · dsimp only
    rw [h.rp, Function.update_of_ne (Ne.symm hne)]
    exact h.main hne
  · rw [Machine.active, hactive, if_neg he]
    exact h.idle e he
  · apply h.allocated
    dsimp only at hi
    by_cases hir : some i = a.rp
    · rw [hir, h.rp, h.running]
      exact Option.some_ne_none _
    · rwa [Function.update_of_ne hir] at hi

/-- The simulation of the start of a process. -/
theorem Represents.spawn (h : Represents P s a) (hi : s.sp i = none) (hrp : s.rp ≠ some i)
    (cmd argc argv : Word) :
  a.cpu (some i) = none ∧ Represents P (s.spawned P i cmd argc argv)
    ⟨a.rp, Function.update a.cpu (some i)
      (some (Cpu.start P.manosExit cmd argc argv (P.stack i))), a.mem⟩
  := by
  have hnone : a.cpu (some i) = none := by
    have hf := h.waiting i (Ne.symm hrp)
    rw [hi] at hf
    cases hc : a.cpu (some i) with
    | none => rfl
    | some c =>
        rw [hc] at hf
        cases hf
  have hsize : stackSize = 32768 := rfl
  -- the stack is that of a process before, or a new one
  obtain ⟨mem₀, hmem₀, hcanary, hold⟩ : ∃ mem₀,
      (if s.allocated i then s.machine.mem else P.newStack i s.machine.mem) = mem₀ ∧
      P.CanariesEqual mem₀ i ∧
      ∀ x, ¬ P.In (some i) x → ¬ P.Canary i x → mem₀ x = s.machine.mem x := by
    cases hi : s.allocated i with
    | true => exact ⟨_, rfl, h.canaries i hi, fun _ _ _ => rfl⟩
    | false =>
        exact ⟨_, rfl, P.newStack_canaries i _, fun x hx hc => Stacks.newStack_outside hx hc⟩
  obtain ⟨hsp, hsaved, hframe⟩ := setupStack_saved P.manosExit cmd argc argv (P.stack i) mem₀
    P.handlers P.stkalign
  have hsetup (x : ℕ) (hx : ¬ P.In (some i) x) :
      (setupStack P.manosExit cmd argc argv (P.stack i) mem₀).1 x = mem₀ x := by
    apply hframe
    by_contra hin
    exact hx ⟨by rw [Stacks.bottom]; omega, by rw [Stacks.top]; omega⟩
  -- other stacks and other canaries are not changed
  have hout (k : Option ι) (hk : k ≠ some i) (x : ℕ) (hx : P.In k x) :
      (setupStack P.manosExit cmd argc argv (P.stack i) mem₀).1 x = s.machine.mem x := by
    have hxi : ¬ P.In (some i) x := fun hxi => hk (hx.unique hxi)
    rw [hsetup x hxi, hold x hxi fun hc => hc.not_in k hx]
  rw [Switching.spawned, hmem₀]
  refine ⟨hnone, h.rp, ?_, fun k c hk => ?_, fun j hj => ?_, fun hne => ?_, h.idle,
    fun k c hk x h₁ h₂ => ?_, fun j hj => ?_, fun j hj => ?_⟩
  · dsimp only
    rw [Function.update_of_ne hrp]
    exact h.running
  · dsimp only at hk
    by_cases hki : k = some i
    · rw [hki, Function.update_self] at hk
      cases hk
      rw [hki]
      refine ⟨Cpu.start_coherent (P.aligned i), ?_, Nat.le_refl _⟩
      change P.stack i + handlerRoom ≤ P.stack i + stackSize
      rw [handlerRoom]
      omega
    · rw [Function.update_of_ne hki] at hk
      exact h.fits k c hk
  · dsimp only
    by_cases hji : j = i
    · subst hji
      rw [Function.update_self, Function.update_self, hsp]
      refine .frame hsaved ?_
      omega
    · rw [Function.update_of_ne hji, Function.update_of_ne fun heq => hji (Option.some.inj heq)]
      refine (h.waiting j hj).congr fun sp d _ hd hstack _ x h₁ h₂ => ?_
      have htop := (h.fits (some j) d hd).top
      apply hout (some j) fun heq => hji (Option.some.inj heq)
      exact ⟨by rw [Stacks.bottom]; omega, by omega⟩
  · dsimp only
    rw [Function.update_of_ne (Option.some_ne_none i).symm]
    exact h.main hne
  · dsimp only at hk ⊢
    by_cases hki : k = some i
    · rw [hki, Function.update_self] at hk
      cases hk
      rw [hki] at h₂
      exact absurd h₂ (Nat.not_lt.mpr h₁)
    · rw [Function.update_of_ne hki] at hk
      have hroom := (h.fits k c hk).room
      rw [hout k hki x ⟨by omega, h₂⟩]
      exact h.mem k c hk x h₁ h₂
  · dsimp only at hj ⊢
    by_cases hji : j = i
    · rw [hji, Function.update_self]
    · rw [Function.update_of_ne fun heq => hji (Option.some.inj heq)] at hj
      rw [Function.update_of_ne hji]
      exact h.allocated j hj
  · dsimp only at hj ⊢
    by_cases hji : j = i
    · subst hji
      exact hcanary.congr fun x hx => hsetup x (hx.not_in _)
    · rw [Function.update_of_ne hji] at hj
      refine (h.canaries j hj).congr fun x hx => ?_
      rw [hsetup x (hx.not_in _), hold x (hx.not_in _) fun hc => hji (hx.unique hc)]

/-- What is known when `scheduleProc` is called, for the process that was running. -/
structure Interrupted (P : Platform ι) (s : Switching ι) (a : Processors ι) (e : Exception)
    (m : Machine) : Prop where
  arg : (m.core.r 0).toNat = m.core.sp + 4
  saved : Saved P.handlers P.stkalign m.mem (m.core.sp + 4)
    ⟨s.machine.core, s.machine.active .svCall⟩
  lower : m.core.sp + 4 < s.machine.core.sp
  room : P.bottom s.rp ≤ m.core.sp
  mem : ∀ x, x < m.core.sp ∨ s.machine.core.sp ≤ x → m.mem x = s.machine.mem x
  number : ipsr m.core.xpsr = e.number
  active : ∀ e', e' ≠ .svCall → m.active e' = decide (e' = e)
  canaries : ∀ i, s.allocated i = true → P.CanariesEqual m.mem i

omit [DecidableEq ι] in
/-- The stack of the process that runs, as far as the handler changes it. -/
theorem Represents.interrupted (h : Represents P s a) {e : Exception} {body : Fin 13 → Word}
    (he : e ≠ .svCall) (hbody : WrapperBody (P.handlers.wrapper e) s.machine.core.r body) :
  Returns s.machine (interruptSave P.handlers P.stkalign e body) fun _ m => Interrupted P s a e m
  := by
  have hfits := h.fits _ _ h.running
  have hroom := hfits.room
  have htop := hfits.top
  have hle := P.top_le s.rp
  dsimp only at hroom htop
  refine (interruptSave_returns he (by omega) hbody).mono ?_
  rintro - m ⟨hr₀, hsaved, hlower, hupper, hmem, hshcsr, hxpsr⟩
  refine ⟨?_, hsaved, hlower, by omega, hmem, ?_, fun e' he' => ?_, fun i hi => ?_⟩
  · rw [hr₀]
    exact Nat.mod_eq_of_lt (by omega)
  · rw [hxpsr, ipsr_number]
  · rw [Machine.active, hshcsr, activated_active, ← Machine.active, h.idle e' he', Bool.false_or]
  · refine (h.canaries i hi).congr fun x hx => hmem x ?_
    by_contra hin
    exact hx.not_in s.rp ⟨by omega, by omega⟩

/-- The frames of the processes that are not recycled are still there after the scheduler. -/
theorem Interrupted.framed {e : Exception} {m : Machine} (hm : Interrupted P s a e m)
    (h : Represents P s a) (hstacks : SparesStacks P s.rp m mem) (dead : ι → Bool) (j : ι) :
  Framed P mem j (Switching.left ⟨m, s.rp, s.sp, s.allocated⟩ dead j) (a.left dead (some j))
  := by
  have hlower := hm.lower
  have hroom := hm.room
  rw [Switching.left, Processors.left]
  split
  next => exact .absent
  next =>
    dsimp only
    split
    next hj =>
      have hrun := h.running
      have htop := (h.fits _ _ hrun).top
      dsimp only at htop
      rw [hj] at hrun hroom htop
      rw [hrun, hm.arg]
      refine .frame (hm.saved.congr fun x h₁ h₂ => ?_) (by rw [← P.bottom_some]; omega)
      dsimp only at h₂
      exact hstacks (some j) x ⟨by omega, by omega⟩ (.inr (by omega))
    next hj =>
      refine (h.waiting j (Ne.symm hj)).congr fun sp d _ hd hstack _ x h₁ h₂ => ?_
      have htop := (h.fits _ _ hd).top
      have hin : P.In (some j) x := ⟨by rw [P.bottom_some]; omega, by omega⟩
      rw [hstacks (some j) x hin (.inl (Ne.symm hj))]
      apply hm.mem
      by_contra hx
      have hrtop := (h.fits _ _ h.running).top
      dsimp only at hrtop
      exact hj (Stacks.In.unique (S := P.toStacks) (x := x) ⟨by omega, by omega⟩ hin)

omit [DecidableEq ι] in
/-- The assertions of `scheduleProc` for the process that was running hold. -/
theorem Interrupted.oldFits {e : Exception} {m : Machine} (hm : Interrupted P s a e m)
    (h : Represents P s a) :
  Switching.OldFits P.toStacks ⟨m, s.rp, s.sp, s.allocated⟩
  := by
  intro i hi
  dsimp only at hi ⊢
  have hrun := h.running
  have hrtop := (h.fits _ _ hrun).top
  have hlower := hm.lower
  dsimp only at hrtop
  rw [hi] at hrun hrtop
  refine ⟨hm.canaries i (h.allocated i (by rw [hrun]; exact Option.some_ne_none _)), ?_⟩
  rw [hm.arg]
  omega

/-- From the call of `scheduleProc` on, the processor gets to a process that has a frame. -/
theorem Interrupted.returns {e : Exception} {m : Machine} (hm : Interrupted P s a e m)
    (h : Represents P s a) (he : e ≠ .svCall) (hstacks : SparesStacks P s.rp m mem)
    (hcanaries : SparesCanaries P m.mem mem) {next : ι} {dead : ι → Bool}
    {scratch : Fin 13 → Word} {c : Cpu} (hnext : a.left dead (some next) = some c) :
  Returns ⟨m, s.rp, s.sp, s.allocated⟩ (scheduleRest P next dead scratch mem) fun _ s' =>
    ∃ m', Resumed ⟨m.core, m.shcsr, mem⟩ m' c ∧
      s' = ⟨m', some next, Switching.left ⟨m, s.rp, s.sp, s.allocated⟩ dead, s.allocated⟩
  := by
  have hcpu : a.cpu (some next) = some c := by
    rw [Processors.left] at hnext
    split at hnext
    · cases hnext
    · exact hnext
  have hframed := hm.framed h hstacks dead next
  rw [hnext] at hframed
  obtain ⟨sp, hsp, hsaved, hstack⟩ :
      ∃ sp, Switching.left ⟨m, s.rp, s.sp, s.allocated⟩ dead next = some sp ∧
      Saved P.handlers P.stkalign mem sp c ∧ P.stack next ≤ sp := by
    generalize hl : Switching.left ⟨m, s.rp, s.sp, s.allocated⟩ dead next = l at hframed
    cases hframed with
    | frame hs hb => exact ⟨_, rfl, hs, hb⟩
  have hfits := h.fits _ _ hcpu
  have hlt := hsaved.lt
  have htop := hfits.top
  have hle := P.top_le (some next)
  have hcanary := hm.canaries next (h.allocated next (by rw [hcpu]; exact Option.some_ne_none _))
  refine .bind (scheduleProc_returns (hm.oldFits h) hsp (hcanaries next hcanary) (by omega)) ?_
  rintro - t rfl
  refine (Returns.onPart (interruptRestore_returns (c := c) hsaved hfits.coherent (by omega) rfl he
    hm.number hm.active)).mono ?_
  rintro - s' ⟨m', hres, rfl⟩
  exact ⟨m', ⟨hres.core, hres.mem, hres.svc, hres.idle⟩, rfl⟩

/-- The simulation of a switch. -/
theorem Interrupted.switch {e : Exception} {m m' : Machine} (hm : Interrupted P s a e m)
    (h : Represents P s a) (hstacks : SparesStacks P s.rp m mem)
    (hcanaries : SparesCanaries P m.mem mem) {next : ι} {dead : ι → Bool} {c : Cpu}
    (hnext : a.left dead (some next) = some c) (hres : Resumed ⟨m.core, m.shcsr, mem⟩ m' c) :
  Represents P
    ⟨m', some next, Switching.left ⟨m, s.rp, s.sp, s.allocated⟩ dead, s.allocated⟩
    ⟨some next, a.left dead, a.mem⟩
  := by
  have hleft {k : Option ι} {d : Cpu} (hk : a.left dead k = some d) : a.cpu k = some d := by
    cases k with
    | none => cases hk
    | some j =>
        rw [Processors.left] at hk
        split at hk
        · cases hk
        · exact hk
  have hmem : m'.mem = mem := hres.mem
  refine ⟨rfl, ?_, fun k d hk => h.fits k d (hleft hk), fun j _ => ?_, fun _ => rfl, hres.idle,
    fun k d hk x h₁ h₂ => ?_, fun j hj => ?_, fun j hj => ?_⟩
  · dsimp only
    rw [hnext, hres.core, hres.svc]
  · dsimp only
    rw [hmem]
    exact hm.framed h hstacks dead j
  · dsimp only at hk ⊢
    have hd := hleft hk
    have hroom := (h.fits k d hd).room
    have hin : P.In k x := ⟨by omega, h₂⟩
    have hlower := hm.lower
    have hbottom := hm.room
    have hrtop := (h.fits _ _ h.running).top
    dsimp only at hrtop
    rw [hmem]
    by_cases hkr : k = s.rp
    · rw [hkr, h.running] at hd
      cases hd
      dsimp only at h₁
      rw [hstacks k x hin (.inr (by omega)), hm.mem x (.inr h₁)]
      exact h.mem _ _ (hkr ▸ h.running) x h₁ h₂
    · rw [hstacks k x hin (.inl hkr), hm.mem x]
      · exact h.mem k d hd x h₁ h₂
      · by_contra hx
        exact hkr (Stacks.In.unique hin ⟨by omega, by omega⟩)
  · obtain ⟨d, hd⟩ := Option.ne_none_iff_exists'.mp hj
    apply h.allocated j
    rw [hleft hd]
    exact Option.some_ne_none d
  · dsimp only
    rw [hmem]
    exact hcanaries j (hm.canaries j hj)

/-- Every step is one of the processes on their own processors, with the same event. -/
theorem SwitchStep.simulate {e : SwitchEvent ι} (hs : SwitchStep P s e s')
    (h : Represents P s a) :
  ∃ a', ProcessorStep P a e a' ∧ Represents P s' a'
  := by
  cases hs with
  | own hc hframes hcanaries => exact ⟨_, .own, h.own hc hframes hcanaries⟩
  | spawn hi hrp =>
      obtain ⟨hnone, h'⟩ := h.spawn hi hrp _ _ _
      exact ⟨_, .spawn hnone, h'⟩
  | @switch e body scratch m mem next dead _ he hbody hsave hstacks hcanaries hrun =>
      have hm := (h.interrupted he hbody).done hsave
      -- a process without a frame is not found
      obtain ⟨⟨⟩, t, hsched, -⟩ := bind_eq_done_iff.mp hrun
      obtain ⟨c, hnext⟩ : ∃ c, a.left dead (some next) = some c := by
        obtain ⟨sp, hsp⟩ := scheduleProc_done (hm.oldFits h) hsched
        have hframed := hm.framed h hstacks dead next
        rw [hsp] at hframed
        generalize a.left dead (some next) = c at hframed
        cases hframed with
        | frame => exact ⟨_, rfl⟩
      obtain ⟨m', hres, rfl⟩ := (hm.returns h he hstacks hcanaries hnext).done hrun
      refine ⟨_, .switch ?_, hm.switch h hstacks hcanaries hnext hres⟩
      rw [hnext]
      exact Option.some_ne_none c

/-- The state in which `main` lets the scheduler start. -/
structure Switching.Boot (P : Platform ι) (s : Switching ι) : Prop where
  rp : s.rp = none
  sp : ∀ i, s.sp i = none
  allocated : ∀ i, s.allocated i = false
  fits : Cpu.Fits P none ⟨s.machine.core, s.machine.active .svCall⟩
  idle : ∀ e, e ≠ .svCall → s.machine.active e = false

/-- The processor of `main`. -/
def Processors.boot (s : Switching ι) : Processors ι where
  rp := none
  cpu := fun k => if k = none then some ⟨s.machine.core, s.machine.active .svCall⟩ else none
  mem := s.machine.mem

omit [DecidableEq ι] in
theorem Represents.boot (hs : s.Boot P) :
  Represents P s (Processors.boot s)
  := by
  refine ⟨hs.rp.symm, ?_, fun k c hk => ?_, fun i _ => ?_, fun hne => ?_, hs.idle,
    fun _ _ _ _ _ _ => rfl, fun i hi => ?_, fun i hi => ?_⟩
  · rw [hs.rp]
    rfl
  · cases k with
    | none =>
        cases hk
        exact hs.fits
    | some i => cases hk
  · rw [hs.sp]
    exact .absent
  · exact absurd hs.rp hne
  · exact absurd rfl hi
  · rw [hs.allocated i] at hi
    cases hi

/--
The processes on one processor go through the same events as if each had its own: the one that runs
has the registers of its processor, and what is on the stacks from the stack pointers on is what is
there for the processors.  The context switch to a process that was started, and not recycled, does
not stop at a fault.  This rests on what the steps assume of processes and of `scheduleProc`, and on
the compiler's use of `r3` in `schedHandler`.
-/
theorem switch_refines {s₀ : Switching ι} {es : List (SwitchEvent ι)} (h₀ : s₀.Boot P)
    (h : Run.Trace (SwitchStep P) s₀ es s) :
  ∃ a, Run.Trace (ProcessorStep P) (Processors.boot s₀) es a ∧ a.rp = s.rp ∧
    a.cpu s.rp = some ⟨s.machine.core, s.machine.active .svCall⟩ ∧
    (∀ k c, a.cpu k = some c → ∀ x, c.core.sp ≤ x → x < P.top k → s.machine.mem x = a.mem x) ∧
    ∀ e body, e ≠ .svCall → WrapperBody (P.handlers.wrapper e) s.machine.core.r body →
      Returns s.machine (interruptSave P.handlers P.stkalign e body) fun _ m =>
        ∀ next dead scratch mem, a.left dead (some next) ≠ none → SparesStacks P s.rp m mem →
          SparesCanaries P m.mem mem →
          Returns ⟨m, s.rp, s.sp, s.allocated⟩ (scheduleRest P next dead scratch mem)
            fun _ s' => s'.rp = some next
  := by
  obtain ⟨a, ha, hR⟩ := h.simulate (Represents.boot h₀) fun _ _ _ _ hR hs => hs.simulate hR
  refine ⟨a, ha, hR.rp, hR.running, hR.mem, fun e body he hbody => ?_⟩
  refine (hR.interrupted he hbody).mono ?_
  intro _ m hm next dead scratch mem hnext hstacks hcanaries
  obtain ⟨c, hc⟩ := Option.ne_none_iff_exists'.mp hnext
  refine (hm.returns hR he hstacks hcanaries hc).mono ?_
  rintro - _ ⟨m', -, rfl⟩
  rfl

end

/-- A platform with one process, on which `pendsvHandler` pushes `r7` and calls `schedHandler`. -/
def onePlatform : Platform Unit where
  main := 0x20000000
  mainTop := 0x20001000
  stack := fun _ => 0x80100000
  aligned := fun _ => by decide
  low := fun _ => by decide
  high := fun _ => by decide
  mainHigh := by decide
  apart := fun _ _ h => absurd rfl h
  mainApart := fun _ => .inl (by decide)
  handlers :=
    { wrapper := fun e => if e = .pendSv then some ⟨[7], 0x501, by decide, by decide⟩ else none
      distinct := by
        intro e e' w w' hw hw' _
        split at hw <;> split at hw' <;> simp_all }
  stkalign := true
  manosExit := 0x601

/-- Before the first switch, on that platform. -/
def oneBoot : Switching Unit where
  machine := ⟨⟨fun _ => 0, 0x20000800, 0, 0x400, 0x1000000⟩, 0, fun _ => 0⟩
  rp := none
  sp := fun _ => none
  allocated := fun _ => false

theorem oneBoot_boot :
  oneBoot.Boot onePlatform
  := by
  refine ⟨rfl, fun _ => rfl, fun _ => rfl, ⟨⟨by decide, by decide, by decide⟩, by decide,
    by decide⟩, fun e _ => ?_⟩
  cases e <;> decide

/-- The first process is started, and the scheduler gets to its function. -/
theorem switch_refines_start :
  ∃ s, Run.Trace (SwitchStep onePlatform) oneBoot
      [.spawn () 0x701 1 0x8000, .switch () fun _ => false] s ∧
    ∃ a, Run.Trace (ProcessorStep onePlatform) (Processors.boot oneBoot)
      [.spawn () 0x701 1 0x8000, .switch () fun _ => false] a ∧
    a.cpu s.rp = some ⟨s.machine.core, s.machine.active .svCall⟩ ∧ s.machine.core.pc = 0x701
  := by
  have h₁ : Run.Trace (SwitchStep onePlatform) oneBoot [.spawn () 0x701 1 0x8000] _ :=
    Run.Trace.nil.snoc (.spawn rfl nofun)
  obtain ⟨a₁, ha₁, -, -, -, hprogress⟩ := switch_refines oneBoot_boot h₁
  have hcpu {a : Processors Unit}
      (ha : Run.Trace (ProcessorStep onePlatform) (Processors.boot oneBoot)
        [.spawn () 0x701 1 0x8000] a) :
      a.cpu (some ()) = some (Cpu.start 0x601 0x701 1 0x8000 0x80100000) := by
    obtain ⟨_, -, hlast⟩ := Run.Trace.last [] ha
    cases hlast
    dsimp only
    rw [Function.update_self]
    rfl
  obtain ⟨_, m, hsave, hrest⟩ := hprogress .pendSv _ (by decide) fun _ _ _ _ => rfl
  obtain ⟨_, s, hrun, hrp⟩ := hrest () (fun _ => false) (fun _ => 0) m.mem
    (by rw [Processors.left, hcpu ha₁]; simp) (fun _ _ _ _ => rfl) fun _ h => h
  have h₂ := h₁.snoc (.switch (by decide) (fun _ _ _ _ => rfl) hsave (fun _ _ _ _ => rfl)
    (fun _ h => h) hrun)
  obtain ⟨a, ha, -, hrunning, -⟩ := switch_refines oneBoot_boot h₂
  refine ⟨s, h₂, a, ha, hrunning, ?_⟩
  obtain ⟨a₂, ha₂, hlast⟩ := Run.Trace.last [SwitchEvent.spawn () 0x701 1 0x8000] ha
  cases hlast
  rw [hrp] at hrunning
  have hcore := congrArg Cpu.core (Option.some.inj ((hcpu ha₂).symm.trans hrunning))
  exact (congrArg Core.pc hcore).symm

end Process
