import Manos.Lib.Armv7m
import Manos.Lib.Run

/-!
# The context switch

The handlers of `schedHandler.c` instruction by instruction, and the stack that `setupStack` makes
for a process.  What the handler pushes on the stack of one process it finds again when it has
switched back, whichever of the two exceptions and whichever process it comes from.
-/

namespace Process

open Exec Armv7m

/-! ### `schedHandler` -/

/-- `SCB_SHCSR_SVCALLACT_MASK` -/
def svcallactMask : Word := 0x80

/--
The instructions of `schedHandler` up to the call.  The compiler has the address of `SCB_SHCSR` in
`r3`.
-/
def schedHandlerSave : Exec Machine Unit := do
  pushLr
  push [4, 5, 6, 7, 8, 9, 10, 11]
  modify fun m => m.setR 0 m.shcsr
  modify fun m => m.setR 0 (m.core.r 0 &&& svcallactMask)
  push [0]
  modify fun m => m.setR 0 (BitVec.ofNat 32 m.core.sp)
  push [3]

/-- The instructions of `schedHandler` from the call on, up to `pop {pc}`. -/
def schedHandlerRestore : Exec Machine Word := do
  pop [3]
  modify fun m => m.setSp (m.core.r 0).toNat
  pop [0]
  modify fun m => m.setR 1 m.shcsr
  modify fun m => m.setR 1 (m.core.r 1 &&& ~~~ svcallactMask)
  modify fun m => m.setR 0 (m.core.r 0 ||| m.core.r 1)
  modify fun m => m.setShcsr (m.core.r 0)
  pop [4, 5, 6, 7, 8, 9, 10, 11]
  popWord

/-! ### `systickHandler` and `pendsvHandler` -/

/--
How the compiler made a function that calls `schedHandler`: the registers that it pushes with `lr`,
and the address after the call.
-/
structure Wrapper where
  saved : List (Fin 13)
  back : Word
  short : saved.length ≤ 13
  code : isExcReturn back = false

/--
`systickHandler` and `pendsvHandler`.  A compiler may end such a function with a branch instead of
a call; then there is no wrapper.
-/
structure Handlers where
  wrapper : Exception → Option Wrapper
  distinct : ∀ e e' w w', wrapper e = some w → wrapper e' = some w' → w.back = w'.back → w = w'

/-- The start of a wrapper, up to the first instruction of `schedHandler`. -/
def enterWrapper (body : Fin 13 → Word) : Option Wrapper → Exec Machine Unit
  | none => modify fun m => ⟨⟨body, m.core.sp, m.core.lr, m.core.pc, m.core.xpsr⟩, m.shcsr, m.mem⟩
  | some w => do
      modify fun m => m.pushed (w.saved.map m.core.r ++ [m.core.lr])
      modify fun m => ⟨⟨body, m.core.sp, w.back, m.core.pc, m.core.xpsr⟩, m.shcsr, m.mem⟩

/-- The wrapper whose call of `schedHandler` is before an address. -/
def Handlers.find (H : Handlers) (back : Word) : Option Wrapper :=
  ([Exception.sysTick, .pendSv].filterMap H.wrapper).find? fun w => w.back = back

/-- A branch in a handler: it returns from the exception, or goes on behind a call. -/
def branch (H : Handlers) (stkalign : Bool) (v : Word) : Exec Machine Unit :=
  if isExcReturn v then exceptionReturn stkalign v
  else match H.find v with
    | none => fault (.wild "pc")
    | some w => do
        pop w.saved
        let ret ← popWord
        exceptionReturn stkalign ret

/-! ### Contexts -/

/-- What a process has of the processor: the registers, and whether it is in a system call. -/
structure Cpu where
  core : Core
  svc : Bool

/-- The registers between two instructions of a process, outside of the handlers. -/
structure Cpu.Coherent (c : Cpu) : Prop where
  aligned : c.core.sp % 4 = 0
  /-- the bit for the padding of a frame is not in the register -/
  pad : c.core.xpsr.getLsbD 9 = false
  /-- the process is in the handler of `svc`, or in none -/
  number : ipsr c.core.xpsr = if c.svc then Exception.svCall.number else 0

/-- The words of the wrapper above those of `schedHandler`. -/
inductive WrapperWords (H : Handlers) (c : Cpu) (call : Fin 13 → Word) : List Word → Prop where
  | none (h : ∀ k : Fin 13, 4 ≤ k.val → k.val < 12 → call k = c.core.r k) :
      WrapperWords H c call [excReturn c.core.xpsr]
  | some {e : Exception} {w : Wrapper} (he : e ≠ .svCall) (hw : H.wrapper e = some w)
      (h : ∀ k : Fin 13, 4 ≤ k.val → k.val < 12 → k ∉ w.saved → call k = c.core.r k) :
      WrapperWords H c call (w.back :: (w.saved.map c.core.r ++ [excReturn c.core.xpsr]))

/-- The words that `schedHandler` pushes. -/
def handlerWords (svc : Bool) (call : Fin 13 → Word) : List Word :=
  (if svc then svcallactMask else 0) :: [4, 5, 6, 7, 8, 9, 10, 11].map call

/-- The registers of a process are on its stack, from `sp` on. -/
inductive Saved (H : Handlers) (stkalign : Bool) (mem : ℕ → Word) (sp : ℕ) (c : Cpu) : Prop where
  | intro {call : Fin 13 → Word} {ws : List Word} {pad : Bool} (hws : WrapperWords H c call ws)
      (hpad : pad = true → stkalign = true)
      (holds : Holds mem sp (handlerWords c.svc call ++ ws ++ frameWords c.core pad))
      (hsp : c.core.sp =
        sp + 4 * (9 + ws.length + 8) + if pad then 4 else 0)
      (halign : pad = true → (sp + 4 * (9 + ws.length)) / 4 % 2 = 0)

section

variable {H : Handlers} {stkalign : Bool} {mem mem' : ℕ → Word} {sp : ℕ} {c : Cpu}

theorem Saved.lt (h : Saved H stkalign mem sp c) :
  sp < c.core.sp
  := by
  cases h with
  | intro _ _ _ hsp _ => omega

/-- A frame depends on the memory below the stack pointer of its process. -/
theorem Saved.congr (h : Saved H stkalign mem sp c)
    (hs : ∀ x, sp ≤ x → x < c.core.sp → mem' x = mem x) :
  Saved H stkalign mem' sp c
  := by
  obtain @⟨call, ws, pad, hws, hpad, hholds, hsp, halign⟩ := h
  refine .intro hws hpad (hholds.congr fun x h₁ h₂ => hs x h₁ ?_) hsp halign
  have hlen : (handlerWords c.svc call).length = 9 := rfl
  rw [List.length_append, List.length_append, frameWords_length, hlen] at h₂
  omega

end

/-! ### Saving -/

section

variable {H : Handlers} {stkalign : Bool} {m m' : Machine} {e : Exception}

/-- The value of `SVCALLACT` that is pushed. -/
theorem svcallact_eq (w : Word) :
  w &&& svcallactMask = if w.getLsbD 7 then svcallactMask else 0
  := by
  ext i hi
  rw [BitVec.getElem_and]
  by_cases h7 : i = 7
  · subst h7
    cases h : w.getLsbD 7 <;> simp_all [svcallactMask, BitVec.getLsbD_eq_getElem]
  · have hmask : svcallactMask[i] = false := by
      rw [svcallactMask]
      revert i
      decide
    rw [hmask, Bool.and_false]
    split
    · exact hmask.symm
    · simp

/-- What `schedHandler` has pushed before it calls `scheduleProc`. -/
theorem schedHandlerSave_returns (hroom : 44 ≤ m.core.sp) :
  Returns m schedHandlerSave fun _ m' => ∃ w,
    Pushed m m' (w :: (handlerWords (m.shcsr.getLsbD 7) m.core.r ++ [m.core.lr])) ∧
    m'.core.r 0 = BitVec.ofNat 32 (m'.core.sp + 4) ∧ m'.shcsr = m.shcsr ∧
    m'.core.xpsr = m.core.xpsr
  := by
  refine .modify fun m₁ hm₁ => .modify fun m₂ hm₂ => .modify fun m₃ hm₃ => ?_
  refine .modify fun m₄ hm₄ => .modify fun m₅ hm₅ => .modify fun m₆ hm₆ => ?_
  have h₁ : Pushed m m₁ [m.core.lr] := by
    refine .of_pushed ?_ (by rw [hm₁]; rfl) (by rw [hm₁]; rfl)
    rw [List.length_singleton]
    omega
  have h₂ : Pushed m₁ m₂ ([4, 5, 6, 7, 8, 9, 10, 11].map m₁.core.r) := by
    have := h₁.sp
    rw [List.length_singleton] at this
    refine .of_pushed ?_ (by rw [hm₂]; rfl) (by rw [hm₂]; rfl)
    rw [List.length_map, List.length_cons]
    simp only [List.length_cons, List.length_nil]
    omega
  have hr₀ : m₄.core.r 0 = if m.shcsr.getLsbD 7 then svcallactMask else 0 := by
    rw [← svcallact_eq, hm₄, hm₃, hm₂, hm₁]
    rfl
  have h₅ : Pushed m₂ m₅ [m₄.core.r 0] := by
    have h := h₁.sp
    have h' := h₂.sp
    simp only [List.length_map, List.length_cons, List.length_nil] at h h'
    refine .of_pushed ?_ (by rw [hm₅, hm₄, hm₃]; rfl) (by rw [hm₅, hm₄, hm₃]; rfl)
    rw [List.length_singleton]
    omega
  have h₇ : Pushed m₅ (m₆.pushed [m₆.core.r 3]) [m₆.core.r 3] := by
    have h := h₁.sp
    have h' := h₂.sp
    have h'' := h₅.sp
    simp only [List.length_map, List.length_cons, List.length_nil] at h h' h''
    refine .of_pushed ?_ (by rw [hm₆]; rfl) (by rw [hm₆]; rfl)
    rw [List.length_singleton]
    omega
  have hregs : m₁.core.r = m.core.r := by
    rw [hm₁]
    rfl
  have h := ((h₁.trans h₂).trans h₅).trans h₇
  rw [hr₀, hregs] at h
  refine ⟨(), _, rfl, m₆.core.r 3, h, ?_, ?_, ?_⟩
  · have h7 := h₇.sp
    rw [List.length_singleton, Nat.mul_one] at h7
    change m₆.core.r 0 = BitVec.ofNat 32 ((m₆.pushed [m₆.core.r 3]).core.sp + 4)
    rw [h7, hm₆]
    rfl
  · change m₆.shcsr = m.shcsr
    rw [hm₆, hm₅, hm₄, hm₃, hm₂, hm₁]
    rfl
  · change m₆.core.xpsr = m.core.xpsr
    rw [hm₆, hm₅, hm₄, hm₃, hm₂, hm₁]
    rfl

/-- The bytes that an exception and its handler need on the stack of the process. -/
def handlerRoom : ℕ := 136

/-- From the exception up to the call of `scheduleProc`. -/
def interruptSave (H : Handlers) (stkalign : Bool) (e : Exception) (body : Fin 13 → Word) :
    Exec Machine Unit := do
  modify fun m => m.entered stkalign e
  enterWrapper body (H.wrapper e)
  schedHandlerSave

/-- What the code of a wrapper may do to the registers. -/
def WrapperBody (w : Option Wrapper) (r body : Fin 13 → Word) : Prop :=
  ∀ k : Fin 13, 4 ≤ k.val → k.val < 12 → (∀ w' ∈ w, k ∉ w'.saved) → body k = r k

/-- What a wrapper has pushed before `schedHandler`, together with the `push {lr}` of this. -/
theorem enterWrapper_returns {c : Cpu} {body : Fin 13 → Word} (he : e ≠ .svCall)
    (hroom : 56 ≤ m.core.sp) (hr : m.core.r = c.core.r) (hlr : m.core.lr = excReturn c.core.xpsr)
    (hbody : WrapperBody (H.wrapper e) c.core.r body) :
  Returns m (enterWrapper body (H.wrapper e)) fun _ m' => ∃ ws, Pushed m m' ws ∧
    ws.length ≤ 14 ∧ WrapperWords H c m'.core.r (m'.core.lr :: ws) ∧ m'.shcsr = m.shcsr ∧
    m'.core.xpsr = m.core.xpsr
  := by
  cases hw : H.wrapper e with
  | none =>
      rw [hw] at hbody
      refine ⟨(), _, rfl, [], .refl rfl rfl, by simp, ?_, rfl, rfl⟩
      change WrapperWords H c body [m.core.lr]
      rw [hlr]
      exact .none fun k h₁ h₂ => hbody k h₁ h₂ nofun
  | some w =>
      rw [hw] at hbody
      have hshort := w.short
      refine ⟨(), _, rfl, w.saved.map m.core.r ++ [m.core.lr], .of_pushed ?_ rfl rfl, ?_, ?_,
        rfl, rfl⟩
      · rw [List.length_append, List.length_map, List.length_singleton]
        omega
      · rw [List.length_append, List.length_map, List.length_singleton]
        omega
      · change WrapperWords H c body (w.back :: _)
        rw [hlr, hr]
        refine .some he hw fun k h₁ h₂ hk => hbody k h₁ h₂ ?_
        rintro _ ⟨⟩
        exact hk

/-- Before `scheduleProc` is called, the registers of the process are on its stack. -/
theorem interruptSave_returns {body : Fin 13 → Word} (he : e ≠ .svCall)
    (hroom : handlerRoom ≤ m.core.sp) (hbody : WrapperBody (H.wrapper e) m.core.r body) :
  Returns m (interruptSave H stkalign e body) fun _ m' =>
    m'.core.r 0 = BitVec.ofNat 32 (m'.core.sp + 4) ∧
    Saved H stkalign m'.mem (m'.core.sp + 4) ⟨m.core, m.shcsr.getLsbD 7⟩ ∧
    m'.core.sp + 4 < m.core.sp ∧ m.core.sp ≤ m'.core.sp + handlerRoom ∧
    (∀ x, x < m'.core.sp ∨ m.core.sp ≤ x → m'.mem x = m.mem x) ∧
    m'.shcsr = m.shcsr ||| e.mask ∧ m'.core.xpsr = (m.core.xpsr &&& ~~~ 0x1ff) ||| e.number
  := by
  rw [handlerRoom] at hroom ⊢
  obtain ⟨pad, hpad, h₁⟩ := m.entered_pushed stkalign e (by omega)
  have hcases := padding_cases stkalign m.core.sp
  refine .modify fun m₁ hm₁ => ?_
  rw [← hm₁] at h₁
  have hsp₁ := h₁.sp
  rw [List.length_append, frameWords_length] at hsp₁
  have hlr : m₁.core.lr = excReturn m.core.xpsr := by rw [hm₁]; rfl
  have hr : m₁.core.r = m.core.r := by rw [hm₁]; rfl
  have hshcsr : m₁.shcsr = m.shcsr ||| e.mask := by rw [hm₁]; rfl
  have hxpsr : m₁.core.xpsr = (m.core.xpsr &&& ~~~ 0x1ff) ||| e.number := by rw [hm₁]; rfl
  refine .bind (enterWrapper_returns (c := ⟨m.core, m.shcsr.getLsbD 7⟩) he (by omega) hr hlr
    hbody) ?_
  rintro - m₂ ⟨ws, h₂, hlen, hws, hshcsr₂, hxpsr₂⟩
  have hsp₂ := h₂.sp
  refine (schedHandlerSave_returns (by omega)).mono ?_
  rintro - m₃ ⟨w, h₃, hr₀, hshcsr₃, hxpsr₃⟩
  have hsp₃ := h₃.sp
  have h := (h₁.trans h₂).trans h₃
  have hbit : (m.shcsr ||| e.mask).getLsbD 7 = m.shcsr.getLsbD 7 := by
    rw [show 7 = Exception.svCall.bit from rfl, activated_active, decide_eq_false (Ne.symm he),
      Bool.or_false]
  rw [hshcsr₂, hshcsr, hbit] at h
  simp only [List.length_cons, List.length_append, handlerWords, List.length_map,
    List.length_nil] at hsp₃
  refine ⟨hr₀, ?_, by omega, by omega, fun x hx => ?_, ?_, ?_⟩
  · refine @Saved.intro H stkalign _ _ ⟨m.core, m.shcsr.getLsbD 7⟩ _ (m₂.core.lr :: ws)
      (decide (padding stkalign m.core.sp ≠ 0)) hws ?_ ?_ ?_ ?_
    · intro hpad₁
      rcases hcases with h0 | ⟨-, hs, -⟩
      · simp [h0] at hpad₁
      · exact hs
    · have hwords := h.holds
      rw [List.cons_append, Holds, ← List.append_assoc, ← List.append_assoc, holds_append]
        at hwords
      simpa using hwords.2.1
    · rcases hcases with h0 | ⟨h4, -⟩
      · rw [h0, decide_eq_false (by simp), if_neg (by simp), List.length_cons]
        dsimp only
        omega
      · rw [h4, decide_eq_true (by simp), if_pos rfl, List.length_cons]
        dsimp only
        omega
    · intro hpad₁
      rcases hcases with h0 | ⟨h4, -, hodd⟩
      · simp [h0] at hpad₁
      · rw [List.length_cons]
        omega
  · exact h.frame x hx
  · rw [hshcsr₃, hshcsr₂, hshcsr]
  · rw [hxpsr₃, hxpsr₂, hxpsr]

/-! ### Restoring -/

/-- What `schedHandler` pops once it has the stack pointer of another process in `r0`. -/
theorem schedHandlerRestore_returns {sp : ℕ} {svc : Bool} {call : Fin 13 → Word} {v : Word}
    {rest : List Word} (hlt : sp < 2 ^ 32) (hr : m.core.r 0 = BitVec.ofNat 32 sp)
    (h : Holds m.mem sp (handlerWords svc call ++ v :: rest)) :
  Returns m schedHandlerRestore fun ret m' => ret = v ∧ m'.core.sp = sp + 40 ∧ m'.mem = m.mem ∧
    m'.shcsr = (if svc then svcallactMask else 0) ||| (m.shcsr &&& ~~~ svcallactMask) ∧
    m'.core.xpsr = m.core.xpsr ∧ ∀ k : Fin 13, 4 ≤ k.val → k.val < 12 → m'.core.r k = call k
  := by
  rw [holds_append] at h
  obtain ⟨⟨h₀, hcall⟩, hrest⟩ := h
  refine .modify fun m₁ hm₁ => .modify fun m₂ hm₂ => .modify fun m₃ hm₃ => ?_
  refine .modify fun m₄ hm₄ => .modify fun m₅ hm₅ => .modify fun m₆ hm₆ => ?_
  refine .modify fun m₇ hm₇ => .modify fun m₈ hm₈ => ?_
  have hsp₂ : m₂.core.sp = sp := by
    have h₁ : m₁.core.r 0 = m.core.r 0 := by
      rw [hm₁]
      exact Machine.popped_of_ne (by decide)
    rw [hm₂, h₁, hr]
    exact Nat.mod_eq_of_lt hlt
  have hmem₂ : m₂.mem = m.mem := by rw [hm₂, hm₁]; rfl
  have hr₃ : m₃.core.r 0 = if svc then svcallactMask else 0 := by
    rw [← h₀, ← hsp₂, ← hmem₂, hm₃, Machine.popped_self]
  have hshcsr₂ : m₃.shcsr = m.shcsr := by rw [hm₃, hm₂, hm₁]; rfl
  have hr₆ : m₆.core.r 0 =
      (if svc then svcallactMask else 0) ||| (m.shcsr &&& ~~~ svcallactMask) := by
    have h₅ : m₅.core.r 1 = m.shcsr &&& ~~~ svcallactMask := by
      rw [hm₅, Machine.setR_self, hm₄, Machine.setR_self, hshcsr₂]
    have h₅' : m₅.core.r 0 = m₃.core.r 0 := by
      rw [hm₅, Machine.setR_of_ne (by decide), hm₄, Machine.setR_of_ne (by decide)]
    rw [hm₆, Machine.setR_self, h₅, h₅', hr₃]
  have hsp₇ : m₇.core.sp = sp + 4 := by rw [← hsp₂, hm₇, hm₆, hm₅, hm₄, hm₃]; rfl
  have hmem₇ : m₇.mem = m.mem := by rw [← hmem₂, hm₇, hm₆, hm₅, hm₄, hm₃]; rfl
  have hsp₈ : m₈.core.sp = sp + 36 := by
    rw [hm₈]
    change m₇.core.sp + 32 = sp + 36
    rw [hsp₇]
  have hmem₈ : m₈.mem = m.mem := by rw [← hmem₇, hm₈]; rfl
  refine ⟨_, _, rfl, ?_, ?_, hmem₈, ?_, ?_, fun k h₁ h₂ => ?_⟩
  · rw [hsp₈, hmem₈]
    exact hrest.1
  · change m₈.core.sp + 4 = sp + 40
    rw [hsp₈]
  · change m₈.shcsr = _
    rw [← hr₆, hm₈, hm₇]
    rfl
  · change m₈.core.xpsr = _
    rw [hm₈, hm₇, hm₆, hm₅, hm₄, hm₃, hm₂, hm₁]
    rfl
  · change m₈.core.r k = call k
    rw [← hmem₇, ← hsp₇] at hcall
    have hload := hcall.load
    rw [hm₈]
    change setRegs m₇.core.r _ (loadWords m₇.mem m₇.core.sp 8) k = call k
    rw [List.length_map] at hload
    rw [show loadWords m₇.mem m₇.core.sp 8 = _ from hload, setRegs_map, if_pos]
    revert k
    decide

/-- From where `schedHandler` has the stack pointer of another process, to this process. -/
def interruptRestore (H : Handlers) (stkalign : Bool) : Exec Machine Unit := do
  let v ← schedHandlerRestore
  branch H stkalign v

/-- A wrapper is found by the address behind its call. -/
theorem Handlers.find_back {w : Wrapper} (he : e ≠ .svCall) (hw : H.wrapper e = some w) :
  H.find w.back = some w
  := by
  have hmem : w ∈ [Exception.sysTick, .pendSv].filterMap H.wrapper := by
    apply List.mem_filterMap.mpr
    refine ⟨e, ?_, hw⟩
    cases e with
    | svCall => contradiction
    | pendSv => decide
    | sysTick => decide
  rw [Handlers.find]
  cases hfind : ([Exception.sysTick, .pendSv].filterMap H.wrapper).find? _ with
  | none => simpa using List.find?_eq_none.mp hfind w hmem
  | some w' =>
      obtain ⟨e', -, hw'⟩ := List.mem_filterMap.mp (List.mem_of_find?_eq_some hfind)
      have hback := List.find?_some hfind
      rw [H.distinct e' e w' w hw' hw (of_decide_eq_true hback)]

/-- The active bits once `SVCALLACT` is that of another process. -/
theorem restored_active (svc : Bool) (w : Word) (e : Exception) :
  ((if svc then svcallactMask else 0) ||| (w &&& ~~~ svcallactMask)).getLsbD e.bit =
    if e = .svCall then svc else w.getLsbD e.bit
  := by
  have hmask : svcallactMask.getLsbD e.bit = decide (e = .svCall) := by cases e <;> decide
  have hlt : e.bit < 32 := by cases e <;> decide
  rw [BitVec.getLsbD_or, BitVec.getLsbD_and, BitVec.getLsbD_not, hmask, decide_eq_true hlt]
  by_cases he : e = .svCall
  · rw [if_pos he, decide_eq_true he]
    cases svc with
    | false => simp
    | true => rw [if_pos rfl, hmask, decide_eq_true he, Bool.true_or]
  · rw [if_neg he, decide_eq_false he]
    cases svc with
    | false => simp
    | true => simp [hmask, he]

/-- The processor at the return to a process. -/
structure Resumed (m m' : Machine) (c : Cpu) : Prop where
  core : m'.core = c.core
  mem : m'.mem = m.mem
  svc : m'.active .svCall = c.svc
  idle : ∀ e, e ≠ .svCall → m'.active e = false

/-- The return from the exception, when the registers that are not in the frame are restored. -/
theorem return_resumed {c : Cpu} (pad : Bool) (hc : c.Coherent) (he : e ≠ .svCall)
    (hnumber : ipsr m.core.xpsr = e.number) (hactive : ∀ e', m.active e' =
      if e' = .svCall then c.svc else decide (e' = e))
    (hframe : Holds m.mem m.core.sp (frameWords c.core pad))
    (hpad : pad = true → stkalign = true ∧ m.core.sp / 4 % 2 = 0)
    (hsp : c.core.sp = m.core.sp + 32 + if pad then 4 else 0)
    (hregs : ∀ k : Fin 13, 4 ≤ k.val → k.val < 12 → m.core.r k = c.core.r k) :
  Returns m (exceptionReturn stkalign (excReturn c.core.xpsr)) fun _ m' => Resumed m m' c
  := by
  have hnested : ipsr c.core.xpsr = 0 → m.nested = 1 := by
    intro h0
    have hsvc : c.svc = false := by
      cases hsvc : c.svc with
      | false => rfl
      | true =>
          have := hc.number
          rw [hsvc, if_pos rfl, h0] at this
          exact absurd this (by decide)
    rw [Machine.nested]
    simp only [hactive, hsvc]
    cases e with
    | svCall => contradiction
    | pendSv => rfl
    | sysTick => rfl
  have hact : m.active e = true := by rw [hactive, if_neg he, decide_eq_true rfl]
  refine (exceptionReturn_returns hnumber hact hframe hpad hc.pad hnested).mono ?_
  rintro - m' rfl
  refine ⟨?_, rfl, ?_, fun e' he' => ?_⟩
  · have hr : (fun k => if k ∈ stacked then c.core.r k else m.core.r k) = c.core.r := by
      funext k
      split
      next => rfl
      next hk =>
          have hk' : 4 ≤ k.val ∧ k.val < 12 := by
            revert k
            decide
          exact hregs k hk'.1 hk'.2
    dsimp only
    rw [hr, ← hsp]
  · rw [Machine.active, deactivated_active, ← Machine.active, hactive, if_pos rfl,
      decide_eq_true (Ne.symm he), Bool.and_true]
  · rw [Machine.active, deactivated_active, ← Machine.active, hactive, if_neg he']
    by_cases h : e' = e <;> simp [h]

/-- A process whose registers are on its stack gets them back. -/
theorem interruptRestore_returns {c : Cpu} {sp : ℕ} (hs : Saved H stkalign m.mem sp c)
    (hc : c.Coherent) (hlt : sp < 2 ^ 32) (hr : m.core.r 0 = BitVec.ofNat 32 sp)
    (he : e ≠ .svCall) (hnumber : ipsr m.core.xpsr = e.number)
    (hactive : ∀ e', e' ≠ .svCall → m.active e' = decide (e' = e)) :
  Returns m (interruptRestore H stkalign) fun _ m' => Resumed m m' c
  := by
  obtain @⟨call, ws, pad, hws, hpad, hholds, hsp, halign⟩ := hs
  have hlen : (handlerWords c.svc call).length = 9 := rfl
  rw [List.append_assoc] at hholds
  have hframe : Holds m.mem (sp + 36 + 4 * ws.length) (frameWords c.core pad) := by
    have h := (holds_append.mp hholds).2
    rw [hlen] at h
    exact (holds_append.mp h).2
  have hact {m₁ : Machine} (h : m₁.shcsr =
      (if c.svc then svcallactMask else 0) ||| (m.shcsr &&& ~~~ svcallactMask)) (e' : Exception) :
      m₁.active e' = if e' = .svCall then c.svc else decide (e' = e) := by
    rw [Machine.active, h, restored_active]
    split
    next => rfl
    next hne => exact hactive e' hne
  cases hws with
  | none hcall =>
      rw [List.length_singleton] at hframe hsp halign
      refine .bind (schedHandlerRestore_returns hlt hr hholds) ?_
      rintro _ m₁ ⟨rfl, hsp₁, hmem₁, hshcsr₁, hxpsr₁, hregs₁⟩
      rw [branch, if_pos (by rw [excReturn]; split <;> decide)]
      refine (return_resumed pad hc he ?_ (hact hshcsr₁) ?_ ?_ ?_ ?_).mono ?_
      · rw [hxpsr₁, hnumber]
      · rw [hmem₁, hsp₁]
        exact hframe
      · intro hp
        rw [hsp₁]
        exact ⟨hpad hp, halign hp⟩
      · rw [hsp, hsp₁]
      · intro k h₁ h₂
        rw [hregs₁ k h₁ h₂, hcall k h₁ h₂]
      · rintro - m' ⟨hcore, hmem, hsvc, hidle⟩
        exact ⟨hcore, hmem.trans hmem₁, hsvc, hidle⟩
  | @some e' w he' hw hcall =>
      simp only [List.length_cons, List.length_append, List.length_map, List.length_nil]
        at hframe hsp halign
      refine .bind (schedHandlerRestore_returns hlt hr hholds) ?_
      rintro _ m₁ ⟨rfl, hsp₁, hmem₁, hshcsr₁, hxpsr₁, hregs₁⟩
      rw [branch, if_neg (by rw [w.code]; decide), H.find_back he' hw]
      -- the words of the wrapper are above those of `schedHandler`
      have hwords := (holds_append.mp (holds_append.mp hholds).2).1.2
      rw [hlen, holds_append, show sp + 4 * 9 + 4 = sp + 40 from rfl] at hwords
      have hload := hwords.1.load
      rw [List.length_map] at hload
      refine .modify fun m₂ hm₂ => ?_
      have hsp₂ : m₂.core.sp = sp + 40 + 4 * w.saved.length := by rw [hm₂, ← hsp₁]; rfl
      have hmem₂ : m₂.mem = m.mem := by rw [hm₂, ← hmem₁]; rfl
      have hregs₂ (k : Fin 13) :
          m₂.core.r k = if k ∈ w.saved then c.core.r k else m₁.core.r k := by
        rw [hm₂]
        change setRegs m₁.core.r w.saved (loadWords m₁.mem m₁.core.sp w.saved.length) k = _
        rw [hmem₁, hsp₁, hload, setRegs_map]
      have hret : m₂.mem m₂.core.sp = excReturn c.core.xpsr := by
        rw [hmem₂, hsp₂, ← hwords.2.1, List.length_map]
      refine .step (x := popWord) rfl ?_
      rw [hret]
      refine (return_resumed pad hc he ?_ (hact ?_) ?_ ?_ ?_ ?_).mono ?_
      · change ipsr m₂.core.xpsr = e.number
        rw [hm₂, ← hnumber, ← hxpsr₁]
        rfl
      · change m₂.shcsr = _
        rw [hm₂, ← hshcsr₁]
        rfl
      · change Holds m₂.mem (m₂.core.sp + 4) _
        rw [hmem₂, hsp₂, show sp + 40 + 4 * w.saved.length + 4 =
          sp + 36 + 4 * (w.saved.length + (0 + 1) + 1) by omega]
        exact hframe
      · intro hp
        refine ⟨hpad hp, ?_⟩
        change (m₂.core.sp + 4) / 4 % 2 = 0
        rw [hsp₂, show sp + 40 + 4 * w.saved.length + 4 =
          sp + 4 * (9 + (w.saved.length + (0 + 1) + 1)) by omega]
        exact halign hp
      · change c.core.sp = m₂.core.sp + 4 + 32 + _
        rw [hsp, hsp₂]
        omega
      · intro k h₁ h₂
        change m₂.core.r k = c.core.r k
        rw [hregs₂ k]
        split
        next => rfl
        next hk => rw [hregs₁ k h₁ h₂, hcall k h₁ h₂ hk]
      · rintro - m' ⟨hcore, hmem, hsvc, hidle⟩
        exact ⟨hcore, hmem.trans hmem₂, hsvc, hidle⟩

end

/-! ### `setupStack` -/

/-- `MANOS_ARCH_K70_STACK_SIZE` -/
def stackSize : ℕ := 32 * 1024

/-- The words that `setupStack` stores, in this order. -/
def setupWords (manosExit cmd argc argv : Word) : List Word :=
  [0x1000000, cmd, manosExit, 0x0c0c0c0c, 0x03030303, 0x02020202, argv, argc, 0xfffffff9,
    0x0b0b0b0b, 0x0a0a0a0a, 0x09090909, 0x08080808, 0x07070707, 0x06060606, 0x05050505,
    0x04040404, 0x00000000]

/-- `setupStack`, with the memory and `p->sp` after it. -/
def setupStack (manosExit cmd argc argv : Word) (stack : ℕ) (mem : ℕ → Word) : (ℕ → Word) × ℕ :=
  (setupWords manosExit cmd argc argv).foldl storeDown (mem, stack + stackSize)

/-- A process at the call `cmd(argc, argv)`, from which it returns to `__manos_exit`. -/
def Cpu.start (manosExit cmd argc argv : Word) (stack : ℕ) : Cpu where
  core :=
    { r := ![argc, argv, 0x02020202, 0x03030303, 0x04040404, 0x05050505, 0x06060606, 0x07070707,
        0x08080808, 0x09090909, 0x0a0a0a0a, 0x0b0b0b0b, 0x0c0c0c0c]
      sp := stack + stackSize
      lr := manosExit
      pc := cmd
      xpsr := 0x1000000 }
  svc := false

theorem Cpu.start_coherent {manosExit cmd argc argv : Word} {stack : ℕ} (h : stack % 4 = 0) :
  (Cpu.start manosExit cmd argc argv stack).Coherent
  := by
  refine ⟨?_, ?_, ?_⟩
  · change (stack + stackSize) % 4 = 0
    rw [stackSize]
    omega
  · change (0x1000000 : Word).getLsbD 9 = false
    decide
  · change ipsr 0x1000000 = 0
    decide

/-- What `setupStack` makes is what the handler would have pushed at the start of `cmd`. -/
theorem setupStack_saved (manosExit cmd argc argv : Word) (stack : ℕ) (mem : ℕ → Word)
    (H : Handlers) (stkalign : Bool) :
  (setupStack manosExit cmd argc argv stack mem).2 = stack + stackSize - 72 ∧
    Saved H stkalign (setupStack manosExit cmd argc argv stack mem).1
      (stack + stackSize - 72) (Cpu.start manosExit cmd argc argv stack) ∧
    ∀ x, x < stack + stackSize - 72 ∨ stack + stackSize ≤ x →
      (setupStack manosExit cmd argc argv stack mem).1 x = mem x
  := by
  have hroom : 4 * (setupWords manosExit cmd argc argv).length ≤ stack + stackSize := by
    rw [stackSize]
    simp only [setupWords, List.length_cons, List.length_nil]
    omega
  obtain ⟨hsp, hholds, hframe⟩ := @foldl_storeDown mem _ _ hroom
  have hret : excReturn (Cpu.start manosExit cmd argc argv stack).core.xpsr = 0xfffffff9 := by
    change excReturn 0x1000000 = 0xfffffff9
    decide
  have hwords : (setupWords manosExit cmd argc argv).reverse =
      handlerWords false (Cpu.start manosExit cmd argc argv stack).core.r ++
        [excReturn (Cpu.start manosExit cmd argc argv stack).core.xpsr] ++
        frameWords (Cpu.start manosExit cmd argc argv stack).core false := by
    rw [hret]
    simp [setupWords, handlerWords, frameWords, Cpu.start]
  rw [hwords] at hholds
  refine ⟨hsp, ?_, hframe⟩
  refine @Saved.intro H stkalign _ _ (Cpu.start manosExit cmd argc argv stack) _ _ false
    (.none fun k _ _ => rfl) nofun hholds ?_ nofun
  change stack + stackSize = stack + stackSize - 72 + 72
  rw [stackSize]
  omega

end Process
