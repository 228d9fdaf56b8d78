import Manos.Lib.Armv7m
import Manos.Lib.ByteMem

/-!
# System calls

The stubs of `syscall.c`, the exception that they cause, and the handler of `svcHandler.c` with its
table.  A stub does what a call of the kernel function does on a platform without exceptions: it
returns the value of the function, if there is one, the function does to the kernel and to the buffers
of its caller what it does there, and no register is lost.
-/

namespace Process

open Exec Armv7m

/-! ### `SYSCALL_MAP` -/

/-- `SyscallIndex` -/
inductive SyscallIndex where
  | EXEC
  | CLOSE
  | FSTAT
  | OPEN
  | READ
  | WRITE
  | TRYLOCK
  | LOCK
  | UNLOCK
  | WAITPID
  | EXITS
  | POSTSIGNAL
  | SLEEP
deriving DecidableEq

namespace SyscallIndex

/-- The constants, in their order. -/
def all : List SyscallIndex :=
  [EXEC, CLOSE, FSTAT, OPEN, READ, WRITE, TRYLOCK, LOCK, UNLOCK, WAITPID, EXITS, POSTSIGNAL, SLEEP]

/-- The value of a constant. -/
def value (i : SyscallIndex) : BitVec 8 := BitVec.ofNat 8 (all.idxOf i)

/-- The constant with a value, if there is one. -/
def ofValue (w : BitVec 8) : Option SyscallIndex := all[w.toNat]?

/-- `isVoid` -/
def isVoid : SyscallIndex → Bool
  | EXEC | FSTAT | OPEN | READ | WRITE | TRYLOCK | POSTSIGNAL | SLEEP => false
  | CLOSE | LOCK | UNLOCK | WAITPID | EXITS => true

theorem ofValue_value (i : SyscallIndex) :
  ofValue i.value = some i
  := by
  cases i <;> rfl

end SyscallIndex

/-! ### `svcHandler` -/

/-- The processor with its memory, and the variables of the kernel. -/
structure Trapped (κ : Type) where
  machine : Machine
  kernel : κ

/-- What a function of the kernel works on. -/
structure Called (κ : Type) where
  kernel : κ
  mem : ℕ → Word

variable {κ : Type}

/-- A program on the processor. -/
def onProcessor {α : Type} (x : Exec Machine α) : Exec (Trapped κ) α :=
  onPart Trapped.machine (fun m s => ⟨m, s.kernel⟩) x

/-- A program of the kernel. -/
def onKernel {α : Type} (x : Exec (Called κ) α) : Exec (Trapped κ) α :=
  onPart (fun s => ⟨s.kernel, s.machine.mem⟩)
    (fun t s => ⟨⟨s.machine.core, s.machine.shcsr, t.mem⟩, t.kernel⟩) x

/-- A store to `frame->a[0]`. -/
def storeResult (frame : ℕ) (w : Word) : Exec Machine Unit :=
  modify fun m => ⟨m.core, m.shcsr, Function.update m.mem frame w⟩

/--
`svcHandlerDispatch`, for the functions of the table and the memory for code; a number that is not
in the table stops at a breakpoint.
-/
def svcHandlerDispatch (fn : SyscallIndex → List Word → Exec (Called κ) Word) (code : ByteMem)
    (frame : ℕ) : Exec (Trapped κ) Unit := do
  let m ← onProcessor get
  match SyscallIndex.ofValue (code ((m.mem (frame + 24)).toNat - 2)) with
  | none => fault (.assertion "Uknown SVC")
  | some idx => do
      let args := loadWords m.mem frame 4
      if idx.isVoid then do
        let _ ← onKernel (fn idx args)
      else do
        let ret ← onKernel (fn idx args)
        onProcessor (storeResult frame ret)

/-- The registers that a C function does not preserve. -/
def clobber (scratch : Fin 13 → Word) : Exec Machine Unit :=
  modify fun m => ⟨⟨fun k => if k ∈ stacked then scratch k else m.core.r k, m.core.sp, m.core.lr,
    m.core.pc, m.core.xpsr⟩, m.shcsr, m.mem⟩

/-- `svcHandler`; the processes have no other stack than the main one. -/
def svcHandler (fn : SyscallIndex → List Word → Exec (Called κ) Word) (code : ByteMem) (stkalign : Bool)
    (scratch : Fin 13 → Word) : Exec (Trapped κ) Unit := do
  let m ← onProcessor get
  if m.core.lr &&& 4 = 0 then do
    let frame := m.core.sp
    onProcessor pushLr
    svcHandlerDispatch fn code frame
    onProcessor (clobber scratch)
    let ret ← onProcessor popWord
    onProcessor (exceptionReturn stkalign ret)
  else fault (.wild "psp")

/-! ### Stubs -/

/-- `svc`, and then `bx lr` -/
def stub (fn : SyscallIndex → List Word → Exec (Called κ) Word) (code : ByteMem) (stkalign : Bool)
    (scratch : Fin 13 → Word) : Exec (Trapped κ) Unit := do
  onProcessor (modify fun m => m.setPc (m.core.pc + 2))
  onProcessor (modify fun m => m.entered stkalign .svCall)
  svcHandler fn code stkalign scratch
  onProcessor (modify fun m => m.setPc (m.core.lr &&& ~~~ 1))

/-! ### A call -/

section

variable {fn : SyscallIndex → List Word → Exec (Called κ) Word} {code : ByteMem} {m : Machine}
  {k k' : κ} {mem mem' : ℕ → Word} {i : SyscallIndex} {r : Word} {bottom base frame sp : ℕ} {c : Core}
  {pad : Bool}

/--
What a function does, called with the stack pointer `base` on a stack that starts at `bottom` and whose
caller had the stack pointer `sp`: whatever is on the stack below `sp`, it returns `r`, with the kernel
`k'` and outside of that part of the stack the memory `mem'`, and it spares what is above its own stack
pointer there.
-/
def Answers (f : Exec (Called κ) Word) (k : κ) (mem : ℕ → Word) (bottom base sp : ℕ) (r : Word)
    (k' : κ) (mem' : ℕ → Word) : Prop :=
  ∀ mem₁ : ℕ → Word, (∀ x, x < bottom ∨ sp ≤ x → mem₁ x = mem x) →
    ∃ mem₂ : ℕ → Word, f ⟨k, mem₁⟩ = .done r ⟨k', mem₂⟩ ∧
      (∀ x, x < bottom ∨ sp ≤ x → mem₂ x = mem' x) ∧ ∀ x, base ≤ x → x < sp → mem₂ x = mem₁ x

/-- The stack pointer with which the handler calls a function: below it are the frame of the
exception and `lr`. -/
def handlerSp (stkalign : Bool) (sp : ℕ) : ℕ := sp - padding stkalign sp - 36

/-- The registers of a process after a system call. -/
def Core.answered (c : Core) (i : SyscallIndex) (r : Word) : Core :=
  ⟨if i.isVoid then c.r else Function.update c.r 0 r, c.sp, c.lr, c.pc, c.xpsr⟩

/-- The function gets the arguments of the process, and its value is stored in the frame. -/
theorem svcHandlerDispatch_returns (hframe : Holds m.mem frame (frameWords c pad))
    (hcode : code (c.pc.toNat - 2) = i.value)
    (hfn : fn i [c.r 0, c.r 1, c.r 2, c.r 3] ⟨k, m.mem⟩ = .done r ⟨k', mem⟩)
    (hspares : ∀ x, frame ≤ x → x < frame + 4 * (frameWords c pad).length → mem x = m.mem x) :
  Returns ⟨m, k⟩ (svcHandlerDispatch fn code frame) fun _ s' => s'.kernel = k' ∧
    s'.machine.core = m.core ∧ s'.machine.shcsr = m.shcsr ∧
    Holds s'.machine.mem frame (frameWords (Core.answered c i r) pad) ∧
    ∀ x, x ≠ frame → s'.machine.mem x = mem x
  := by
  have hall := hframe.congr hspares
  obtain ⟨h0, h1, h2, h3, h12, hlr, hpc, hxpsr, -⟩ := hframe
  have hargs : loadWords m.mem frame 4 = [c.r 0, c.r 1, c.r 2, c.r 3] := by
    rw [← h0, ← h1, ← h2, ← h3]
    rfl
  have hpc' : m.mem (frame + 24) = c.pc := hpc
  refine .step (show onProcessor get _ = .done m ⟨m, k⟩ from rfl) ?_
  rw [hpc', hcode, SyscallIndex.ofValue_value]
  dsimp only
  rw [hargs]
  have hcall : onKernel (fn i [c.r 0, c.r 1, c.r 2, c.r 3]) (⟨m, k⟩ : Trapped κ) =
      .done r ⟨⟨m.core, m.shcsr, mem⟩, k'⟩ := by
    rw [onKernel, onPart, hfn]
  split
  next hvoid =>
    refine .step hcall (.pure ⟨rfl, rfl, rfl, ?_, fun _ _ => rfl⟩)
    rw [Core.answered, if_pos hvoid]
    exact hall
  next hvoid =>
    refine .step hcall ⟨(), _, rfl, rfl, rfl, rfl, ?_, fun x hx => Function.update_of_ne hx _ _⟩
    rw [Core.answered, if_neg hvoid]
    refine ⟨Function.update_self _ _ _, ?_⟩
    have hstay : Holds mem _ _ := hall.2
    refine hstay.congr fun x hx _ => Function.update_of_ne ?_ _ _
    omega

/-- The handler returns to the instruction behind `svc`, with the answer of the kernel. -/
theorem svcHandler_returns (hcode : code (m.core.pc.toNat - 2) = i.value)
    (hthread : ipsr m.core.xpsr = 0) (hbit : m.core.xpsr.getLsbD 9 = false)
    (hidle : ∀ e, m.active e = false) (hroom : bottom + 40 ≤ m.core.sp) (stkalign : Bool)
    (scratch : Fin 13 → Word)
    (hfn : Answers (fn i [m.core.r 0, m.core.r 1, m.core.r 2, m.core.r 3]) k m.mem bottom
      (handlerSp stkalign m.core.sp) m.core.sp r k' mem') :
  Returns ⟨m.entered stkalign .svCall, k⟩ (svcHandler fn code stkalign scratch) fun _ s' =>
    s'.kernel = k' ∧ s'.machine.core = Core.answered m.core i r ∧
    (∀ e, s'.machine.active e = false) ∧
    ∀ x, x < bottom ∨ m.core.sp ≤ x → s'.machine.mem x = mem' x
  := by
  have hpad := padding_cases stkalign m.core.sp
  obtain ⟨pad, hlen, h₁⟩ := m.entered_pushed stkalign .svCall (by omega)
  generalize hm₂ : m.entered stkalign .svCall = m₂ at h₁ ⊢
  have hlr : m₂.core.lr = excReturn m.core.xpsr := by rw [← hm₂]; rfl
  have hthread₂ : m₂.core.lr = returnThread := by rw [hlr, excReturn, if_pos hthread]
  have hsp₂ : m₂.core.sp = m.core.sp - padding stkalign m.core.sp - 32 := by rw [← hm₂]; rfl
  -- the handler pushes `lr` below the frame
  have h₃ : Pushed m₂ (m₂.pushed [m₂.core.lr]) [m₂.core.lr] :=
    .of_pushed (by rw [List.length_singleton]; omega) rfl rfl
  have hframe₃ := (holds_append.mp h₁.holds).1.congr fun x hx _ => h₃.frame x (.inr hx)
  have hsp₃ := h₃.sp
  rw [List.length_singleton, Nat.mul_one] at hsp₃
  refine .step (show onProcessor get _ = .done m₂ ⟨m₂, k⟩ from rfl) ?_
  rw [if_pos (by rw [hthread₂]; decide)]
  refine .step (show onProcessor pushLr _ = .done () ⟨m₂.pushed [m₂.core.lr], k⟩ from rfl) ?_
  -- the function of the kernel, called with this memory
  obtain ⟨mem₂, hrun, hmem, hspares⟩ := hfn (m₂.pushed [m₂.core.lr]).mem (by
    intro x hx
    rw [h₃.frame x (by omega), h₁.frame x (by omega)])
  rw [handlerSp] at hspares
  refine .bind (svcHandlerDispatch_returns hframe₃ hcode hrun ?_) ?_
  · intro x hx hx'
    rw [frameWords_length] at hx'
    exact hspares x (by omega) (by omega)
  rintro - ⟨m₄, k₄⟩ ⟨hk₄, hcore₄, hshcsr₄, hframe₄, hmem₄⟩
  dsimp only at hk₄ hcore₄ hshcsr₄ hframe₄ hmem₄
  have hsp₄ : m₄.core.sp = (m₂.pushed [m₂.core.lr]).core.sp := by rw [hcore₄]
  have hret : m₄.mem m₄.core.sp = excReturn m.core.xpsr := by
    rw [hmem₄ _ (by omega), hsp₄, hspares _ (by omega) (by omega), ← hlr]
    exact h₃.holds.1
  have hactive₄ (e : Exception) : m₄.active e = decide (e = .svCall) := by
    rw [Machine.active, hshcsr₄]
    change m₂.shcsr.getLsbD e.bit = _
    rw [← hm₂]
    change (m.shcsr ||| Exception.svCall.mask).getLsbD e.bit = _
    rw [activated_active, ← Machine.active, hidle, Bool.false_or]
  -- the machine once `lr` is popped
  let m₅ : Machine := ⟨⟨fun k => if k ∈ stacked then scratch k else m₄.core.r k,
    m₄.core.sp + 4, m₄.core.lr, m₄.core.pc, m₄.core.xpsr⟩, m₄.shcsr, m₄.mem⟩
  have hsp₅ : m₅.core.sp = m₂.core.sp := by
    change m₄.core.sp + 4 = _
    rw [hsp₄, hsp₃]
  have hframe₅ : Holds m₅.mem m₅.core.sp
      (frameWords (Core.answered m.core i r) (padding stkalign m.core.sp ≠ 0)) := by
    rw [hsp₅]
    exact hframe₄
  have hnumber₅ : ipsr m₅.core.xpsr = Exception.svCall.number := by
    change ipsr m₄.core.xpsr = _
    rw [hcore₄]
    change ipsr m₂.core.xpsr = _
    rw [← hm₂]
    exact ipsr_number _ _
  have hnested₅ : m₅.nested = 1 := by
    have hactive₅ (e : Exception) : m₅.active e = decide (e = .svCall) := hactive₄ e
    simp only [Machine.nested, hactive₅]
    rfl
  have hpad₅ : decide (padding stkalign m.core.sp ≠ 0) = true →
      stkalign = true ∧ m₅.core.sp / 4 % 2 = 0 := by
    intro hp
    rw [hsp₅, hsp₂]
    rcases hpad with h0 | ⟨h4, hs, hodd⟩
    · rw [h0] at hp
      cases hp
    · refine ⟨hs, ?_⟩
      omega
  have hback := exceptionReturn_returns hnumber₅ (hactive₄ .svCall) hframe₅ hpad₅ hbit
    fun _ => hnested₅
  refine .step (show onProcessor (clobber scratch) ⟨m₄, k₄⟩ = .done () ⟨_, k₄⟩ from rfl) ?_
  refine .step (show onProcessor popWord _ = .done (excReturn m.core.xpsr) ⟨m₅, k₄⟩ from ?_) ?_
  · rw [← hret]
    rfl
  refine (Returns.onPart (g := Trapped.machine) (s := ⟨m₅, k₄⟩) hback).mono ?_
  rintro - _ ⟨_, rfl, rfl⟩
  refine ⟨hk₄, ?_, fun e => ?_, fun x hx => ?_⟩
  · have hr : (fun k => if k ∈ stacked then (Core.answered m.core i r).r k else m₅.core.r k) =
        (Core.answered m.core i r).r := by
      funext k
      split
      next => rfl
      next hk =>
        have h0 : k ≠ 0 := fun h0 => hk (h0 ▸ by decide)
        have h₅ : m₅.core.r k = m.core.r k := by
          refine (if_neg hk).trans ?_
          rw [hcore₄]
          change m₂.core.r k = _
          rw [← hm₂]
          rfl
        rw [h₅, Core.answered]
        dsimp only
        split
        · rfl
        · rw [Function.update_of_ne h0]
    have hsp : m₅.core.sp + 32 +
        (if decide (padding stkalign m.core.sp ≠ 0) = true then 4 else 0) = m.core.sp := by
      rw [hsp₅, hsp₂]
      rcases hpad with h0 | ⟨h4, -⟩
      · rw [h0, if_neg (by simp)]
        omega
      · rw [h4, if_pos (by simp)]
        omega
    exact congrArg₂ (fun r sp => (⟨r, sp, m.core.lr, m.core.pc, m.core.xpsr⟩ : Core)) hr hsp
  · change (m₅.shcsr &&& ~~~ Exception.svCall.mask).getLsbD e.bit = false
    rw [deactivated_active, show m₅.shcsr.getLsbD e.bit = _ from hactive₄ e]
    by_cases he : e = .svCall <;> simp [he]
  · change m₄.mem x = mem' x
    rw [hmem₄ x (by omega), hmem x hx]

/--
A stub returns behind its call with the value of the kernel function in `r0`, or with `r0` as it was
if the function has no value.  The kernel, and the memory but for the stack below the caller, are as
the function leaves them; the other registers and the exceptions are as before the call.
-/
theorem stub_returns (hcode : code m.core.pc.toNat = i.value)
    (hpc : m.core.pc.toNat + 2 < 2 ^ 32) (hthread : ipsr m.core.xpsr = 0)
    (hbit : m.core.xpsr.getLsbD 9 = false) (hidle : ∀ e, m.active e = false)
    (hroom : bottom + 40 ≤ m.core.sp) (stkalign : Bool) (scratch : Fin 13 → Word)
    (hfn : Answers (fn i [m.core.r 0, m.core.r 1, m.core.r 2, m.core.r 3]) k m.mem bottom
      (handlerSp stkalign m.core.sp) m.core.sp r k' mem') :
  Returns ⟨m, k⟩ (stub fn code stkalign scratch) fun _ s' => s'.kernel = k' ∧
    s'.machine.core = ⟨(Core.answered m.core i r).r, m.core.sp, m.core.lr,
      m.core.lr &&& ~~~ 1, m.core.xpsr⟩ ∧
    (∀ e, s'.machine.active e = false) ∧
    ∀ x, x < bottom ∨ m.core.sp ≤ x → s'.machine.mem x = mem' x
  := by
  have hcode' : code ((m.core.pc + 2).toNat - 2) = i.value := by
    rw [← hcode, BitVec.toNat_add]
    change code ((m.core.pc.toNat + 2) % 2 ^ 32 - 2) = _
    rw [Nat.mod_eq_of_lt hpc, Nat.add_sub_cancel]
  refine .step (show onProcessor _ _ = .done () ⟨m.setPc (m.core.pc + 2), k⟩ from rfl) ?_
  refine .step (show onProcessor _ _ =
    .done () ⟨(m.setPc (m.core.pc + 2)).entered stkalign .svCall, k⟩ from rfl) ?_
  refine .bind (svcHandler_returns (m := m.setPc (m.core.pc + 2)) hcode' hthread hbit hidle hroom
    stkalign scratch hfn) ?_
  rintro - s' ⟨hk, hcore, hactive, hmem⟩
  refine ⟨(), _, rfl, hk, ?_, hactive, hmem⟩
  change Machine.core (Machine.setPc _ _) = _
  rw [Machine.setPc, hcore]
  rfl

end

/-- `read(3, 0x2010, 2)` of a process, where the kernel function stores the two bytes in the buffer of
its caller. -/
theorem stub_returns_read :
  ∃ s' : Trapped ℕ, s'.kernel = 1 ∧ s'.machine.core.r 0 = 2 ∧ s'.machine.core.r 1 = 0x2010 ∧
    s'.machine.core.pc = 0x500 ∧ s'.machine.mem 0x2010 = 0x6b6f
  := by
  let m : Machine := ⟨⟨![3, 0x2010, 2, 0, 0, 0, 0, 0, 0, 0, 0, 0, 0], 0x2000, 0x501, 0x400,
    0x1000000⟩, 0, fun _ => 0⟩
  let f : SyscallIndex → List Word → Exec (Called ℕ) Word := fun _ _ t =>
    .done 2 ⟨t.kernel + 1, Function.update t.mem 0x2010 0x6b6f⟩
  let code : ByteMem := fun x => if x = 0x400 then 4 else 0xdf
  have hcode : code m.core.pc.toNat = SyscallIndex.READ.value := rfl
  have hread : Answers (f .READ [m.core.r 0, m.core.r 1, m.core.r 2, m.core.r 3]) 0 m.mem 0x1000
      (handlerSp true m.core.sp) m.core.sp 2 1 (Function.update m.mem 0x2010 0x6b6f) := by
    intro mem₁ hmem₁
    refine ⟨_, rfl, fun x hx => ?_, fun x _ hx => Function.update_of_ne ?_ _ _⟩
    · dsimp only
      rw [Function.update_apply, Function.update_apply, hmem₁ x hx]
    · change x < 0x2000 at hx
      omega
  obtain ⟨_, s', -, hk, hcore, -, hmem⟩ := stub_returns (m := m) hcode (by decide) (by decide)
    (by decide) (fun e => by cases e <;> decide) (by decide) true (fun _ => 0) hread
  refine ⟨s', hk, ?_, ?_, ?_, ?_⟩
  · rw [hcore]
    rfl
  · rw [hcore]
    rfl
  · rw [hcore]
    decide
  · rw [hmem _ (.inr (by decide)), Function.update_self]

end Process
