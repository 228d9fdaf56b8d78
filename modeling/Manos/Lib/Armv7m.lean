import Mathlib.Algebra.GroupWithZero.Nat
import Mathlib.Data.Fin.VecNotation
import Manos.Lib.Exec

/-!
# Registers, stacks and exceptions of a processor

What the instructions that push and pop registers do, and how a processor of the architecture
ARMv7-M enters an exception and returns from it on its main stack.
-/

namespace Armv7m

abbrev Word : Type := BitVec 32

/-- The registers `r0` to `r12` are numerals. -/
instance registers : NeZero 13 := ⟨Nat.succ_ne_zero 12⟩

/-! ### Words in memory -/

/-- The memory with the words `ws` from the address `a` on. -/
def storeWords (mem : ℕ → Word) (a : ℕ) : List Word → ℕ → Word
  | [] => mem
  | w :: ws => storeWords (Function.update mem a w) (a + 4) ws

/-- The `n` words from the address `a` on. -/
def loadWords (mem : ℕ → Word) (a : ℕ) : ℕ → List Word
  | 0 => []
  | n + 1 => mem a :: loadWords mem (a + 4) n

/-- The words `ws` are found from the address `a` on. -/
def Holds (mem : ℕ → Word) (a : ℕ) : List Word → Prop
  | [] => True
  | w :: ws => mem a = w ∧ Holds mem (a + 4) ws

section

variable {mem mem' : ℕ → Word} {a x : ℕ} {ws vs : List Word}

theorem storeWords_outside (h : x < a ∨ a + 4 * ws.length ≤ x) :
  storeWords mem a ws x = mem x
  := by
  induction ws generalizing mem a with
  | nil => rfl
  | cons w ws ih =>
      rw [List.length_cons] at h
      rw [storeWords, ih (by omega)]
      apply Function.update_of_ne
      omega

theorem holds_storeWords (mem : ℕ → Word) (a : ℕ) (ws : List Word) :
  Holds (storeWords mem a ws) a ws
  := by
  induction ws generalizing mem a with
  | nil => trivial
  | cons w ws ih =>
      refine ⟨?_, ih _ _⟩
      rw [storeWords, storeWords_outside (by omega), Function.update_self]

theorem Holds.congr (h : Holds mem a ws)
    (hs : ∀ x, a ≤ x → x < a + 4 * ws.length → mem' x = mem x) :
  Holds mem' a ws
  := by
  induction ws generalizing a with
  | nil => trivial
  | cons w ws ih =>
      rw [List.length_cons] at hs
      refine ⟨?_, ih h.2 fun x h₁ h₂ => hs x (by omega) (by omega)⟩
      rw [hs a (by omega) (by omega)]
      exact h.1

theorem holds_append :
  Holds mem a (ws ++ vs) ↔ Holds mem a ws ∧ Holds mem (a + 4 * ws.length) vs
  := by
  induction ws generalizing a with
  | nil => simp [Holds]
  | cons w ws ih =>
      rw [List.cons_append, Holds, Holds, ih, List.length_cons, and_assoc,
        show a + 4 + 4 * ws.length = a + 4 * (ws.length + 1) by omega]

theorem Holds.load (h : Holds mem a ws) :
  loadWords mem a ws.length = ws
  := by
  induction ws generalizing a with
  | nil => rfl
  | cons w ws ih => rw [List.length_cons, loadWords, ih h.2, h.1]

end

/-- `*(--sp) = w`, for a memory and the pointer. -/
def storeDown (s : (ℕ → Word) × ℕ) (w : Word) : (ℕ → Word) × ℕ :=
  (Function.update s.1 (s.2 - 4) w, s.2 - 4)

/-- Words that are stored one below the other. -/
theorem foldl_storeDown {mem : ℕ → Word} {sp : ℕ} {ws : List Word} (h : 4 * ws.length ≤ sp) :
  (ws.foldl storeDown (mem, sp)).2 = sp - 4 * ws.length ∧
    Holds (ws.foldl storeDown (mem, sp)).1 (sp - 4 * ws.length) ws.reverse ∧
    ∀ x, x < sp - 4 * ws.length ∨ sp ≤ x → (ws.foldl storeDown (mem, sp)).1 x = mem x
  := by
  induction ws generalizing mem sp with
  | nil => exact ⟨rfl, trivial, fun _ _ => rfl⟩
  | cons w ws ih =>
      rw [List.length_cons] at h ⊢
      have hsub : sp - 4 - 4 * ws.length = sp - 4 * (ws.length + 1) := by omega
      obtain ⟨hsp, hholds, hframe⟩ := @ih (Function.update mem (sp - 4) w) (sp - 4)
        (by omega)
      rw [hsub] at hsp hholds hframe
      rw [List.foldl_cons, storeDown]
      refine ⟨hsp, ?_, fun x hx => ?_⟩
      · rw [List.reverse_cons, holds_append, List.length_reverse]
        refine ⟨hholds, ?_, trivial⟩
        rw [show sp - 4 * (ws.length + 1) + 4 * ws.length = sp - 4 by omega,
          hframe _ (.inr (Nat.le_refl _)), Function.update_self]
      · rw [hframe x (by omega)]
        apply Function.update_of_ne
        omega

/-! ### Registers -/

/-- The registers `r0` to `r12`, the main stack pointer, and the others. -/
structure Core where
  r : Fin 13 → Word
  sp : ℕ
  lr : Word
  pc : Word
  xpsr : Word

/-- The processor with the register `SHCSR` of the system control block, and the memory. -/
structure Machine where
  core : Core
  shcsr : Word
  mem : ℕ → Word

/-- The registers `rs` get the words `ws`. -/
def setRegs (r : Fin 13 → Word) : List (Fin 13) → List Word → Fin 13 → Word
  | k :: rs, w :: ws => setRegs (Function.update r k w) rs ws
  | _, _ => r

theorem setRegs_map (r f : Fin 13 → Word) (rs : List (Fin 13)) (k : Fin 13) :
  setRegs r rs (rs.map f) k = if k ∈ rs then f k else r k
  := by
  induction rs generalizing r with
  | nil => rfl
  | cons j rs ih =>
      rw [List.map_cons, setRegs, ih]
      by_cases hk : k ∈ rs
      · rw [if_pos hk, if_pos (List.mem_cons_of_mem _ hk)]
      · rw [if_neg hk]
        by_cases hj : k = j
        · subst hj
          rw [Function.update_self, if_pos List.mem_cons_self]
        · rw [Function.update_of_ne hj, if_neg fun hmem => (List.mem_cons.mp hmem).elim hj hk]

namespace Machine

variable (m : Machine)

def setR (k : Fin 13) (w : Word) : Machine :=
  ⟨⟨Function.update m.core.r k w, m.core.sp, m.core.lr, m.core.pc, m.core.xpsr⟩, m.shcsr, m.mem⟩

def setLr (w : Word) : Machine :=
  ⟨⟨m.core.r, m.core.sp, w, m.core.pc, m.core.xpsr⟩, m.shcsr, m.mem⟩

def setSp (sp : ℕ) : Machine :=
  ⟨⟨m.core.r, sp, m.core.lr, m.core.pc, m.core.xpsr⟩, m.shcsr, m.mem⟩

def setPc (w : Word) : Machine :=
  ⟨⟨m.core.r, m.core.sp, m.core.lr, w, m.core.xpsr⟩, m.shcsr, m.mem⟩

def setShcsr (w : Word) : Machine := ⟨m.core, w, m.mem⟩

/-- The words `ws` are pushed, the last one first. -/
def pushed (ws : List Word) : Machine :=
  ⟨⟨m.core.r, m.core.sp - 4 * ws.length, m.core.lr, m.core.pc, m.core.xpsr⟩, m.shcsr,
    storeWords m.mem (m.core.sp - 4 * ws.length) ws⟩

/-- The registers `rs` are popped. -/
def popped (rs : List (Fin 13)) : Machine :=
  ⟨⟨setRegs m.core.r rs (loadWords m.mem m.core.sp rs.length), m.core.sp + 4 * rs.length,
    m.core.lr, m.core.pc, m.core.xpsr⟩, m.shcsr, m.mem⟩

variable {m} {j k : Fin 13}

@[simp]
theorem setR_self (w : Word) :
  (m.setR k w).core.r k = w
  := Function.update_self _ _ _

theorem setR_of_ne (h : j ≠ k) (w : Word) :
  (m.setR k w).core.r j = m.core.r j
  := Function.update_of_ne h _ _

@[simp]
theorem popped_self :
  (m.popped [k]).core.r k = m.mem m.core.sp
  := Function.update_self _ _ _

theorem popped_of_ne (h : j ≠ k) :
  (m.popped [k]).core.r j = m.core.r j
  := Function.update_of_ne h _ _

end Machine

open Exec

/-- `push {…}`; the register with the lowest number has the lowest address. -/
def push (rs : List (Fin 13)) : Exec Machine Unit :=
  modify fun m => m.pushed (rs.map m.core.r)

/-- `push {lr}` -/
def pushLr : Exec Machine Unit := modify fun m => m.pushed [m.core.lr]

/-- `pop {…}` -/
def pop (rs : List (Fin 13)) : Exec Machine Unit := modify fun m => m.popped rs

/-- The word at the top of the stack is popped. -/
def popWord : Exec Machine Word := do
  let m ← get
  modify fun m => m.setSp (m.core.sp + 4)
  return m.mem m.core.sp

/-- What was pushed from one state to another, and that the rest of the memory is the same. -/
structure Pushed (m m' : Machine) (ws : List Word) : Prop where
  sp : m'.core.sp + 4 * ws.length = m.core.sp
  holds : Holds m'.mem m'.core.sp ws
  frame : ∀ x, x < m'.core.sp ∨ m.core.sp ≤ x → m'.mem x = m.mem x

section

variable {m m' m'' : Machine} {ws vs : List Word}

/-- The registers but for the stack pointer may change besides. -/
theorem Pushed.of_pushed (h : 4 * ws.length ≤ m.core.sp)
    (hsp : m'.core.sp = m.core.sp - 4 * ws.length)
    (hmem : m'.mem = storeWords m.mem (m.core.sp - 4 * ws.length) ws) :
  Pushed m m' ws
  := by
  refine ⟨by omega, ?_, fun x hx => ?_⟩
  · rw [hsp, hmem]
    apply holds_storeWords
  · rw [hmem]
    apply storeWords_outside
    omega

theorem Pushed.refl (hsp : m'.core.sp = m.core.sp) (hmem : m'.mem = m.mem) :
  Pushed m m' []
  := ⟨hsp, trivial, fun _ _ => by rw [hmem]⟩

theorem Pushed.trans (h : Pushed m m' ws) (h' : Pushed m' m'' vs) :
  Pushed m m'' (vs ++ ws)
  := by
  have hsp := h.sp
  have hsp' := h'.sp
  refine ⟨?_, ?_, fun x hx => ?_⟩
  · rw [List.length_append]
    omega
  · rw [holds_append, hsp']
    refine ⟨h'.holds, h.holds.congr fun x hx _ => h'.frame x (.inr hx)⟩
  · rw [h'.frame x (by omega), h.frame x (by omega)]

end

/-! ### Exceptions -/

/-- The exceptions whose active bits are in `SHCSR`. -/
inductive Exception where
  | svCall
  | pendSv
  | sysTick
deriving DecidableEq

namespace Exception

/-- The number in `IPSR`. -/
def number : Exception → Word
  | svCall => 11
  | pendSv => 14
  | sysTick => 15

/-- The active bit. -/
def mask : Exception → Word
  | svCall => 0x80
  | pendSv => 0x400
  | sysTick => 0x800

/-- The place of the active bit. -/
def bit : Exception → ℕ
  | svCall => 7
  | pendSv => 10
  | sysTick => 11

end Exception

/-- Whether an exception is active. -/
def Machine.active (m : Machine) (e : Exception) : Bool := m.shcsr.getLsbD e.bit

/-- The number of the exception that is handled, or `0`. -/
def ipsr (xpsr : Word) : Word := xpsr &&& 0x1ff

/-- The value for returning to where there was no exception. -/
def returnThread : Word := 0xfffffff9

/-- The value for returning to another handler. -/
def returnHandler : Word := 0xfffffff1

/-- What is in `lr` when an exception is entered from code with this `xpsr`. -/
def excReturn (xpsr : Word) : Word := if ipsr xpsr = 0 then returnThread else returnHandler

/-- Whether a branch to this address returns from an exception. -/
def isExcReturn (w : Word) : Bool := 0xf0000000 ≤ w.toNat

/-- The bytes that are left free when a frame is aligned to eight bytes. -/
def padding (stkalign : Bool) (sp : ℕ) : ℕ := if stkalign ∧ sp / 4 % 2 = 1 then 4 else 0

/-- The frame that is pushed, with whether bytes were left free above it. -/
def frameWords (c : Core) (pad : Bool) : List Word :=
  [c.r 0, c.r 1, c.r 2, c.r 3, c.r 12, c.lr, c.pc, c.xpsr ||| if pad then 0x200 else 0]

@[simp]
theorem frameWords_length (c : Core) (pad : Bool) :
  (frameWords c pad).length = 8
  := rfl

/-- An exception is entered. -/
def Machine.entered (m : Machine) (stkalign : Bool) (e : Exception) : Machine :=
  let pad := padding stkalign m.core.sp
  ⟨⟨m.core.r, m.core.sp - pad - 32, excReturn m.core.xpsr, m.core.pc,
      (m.core.xpsr &&& ~~~ 0x1ff) ||| e.number⟩,
    m.shcsr ||| e.mask,
    storeWords m.mem (m.core.sp - pad - 32) (frameWords m.core (pad ≠ 0))⟩

theorem padding_cases (stkalign : Bool) (sp : ℕ) :
  padding stkalign sp = 0 ∨ padding stkalign sp = 4 ∧ stkalign = true ∧ sp / 4 % 2 = 1
  := by
  rw [padding]
  split
  next h => exact .inr ⟨rfl, h⟩
  next => exact .inl rfl

/-- What is pushed when an exception is entered. -/
theorem Machine.entered_pushed {m : Machine} (stkalign : Bool) (e : Exception)
    (hroom : 36 ≤ m.core.sp) :
  ∃ pad : List Word, 4 * pad.length = padding stkalign m.core.sp ∧
    Pushed m (m.entered stkalign e)
      (frameWords m.core (padding stkalign m.core.sp ≠ 0) ++ pad)
  := by
  have hsp : (m.entered stkalign e).core.sp = m.core.sp - padding stkalign m.core.sp - 32 := rfl
  have hmem : (m.entered stkalign e).mem = storeWords m.mem
      (m.core.sp - padding stkalign m.core.sp - 32)
      (frameWords m.core (padding stkalign m.core.sp ≠ 0)) := rfl
  rcases padding_cases stkalign m.core.sp with h | ⟨h, -⟩
  · refine ⟨[], h.symm, ?_⟩
    rw [List.append_nil]
    refine .of_pushed (by rw [frameWords_length]; omega) ?_ ?_
    · rw [hsp, h, frameWords_length]
      omega
    · rw [hmem, frameWords_length, h]
      rfl
  · refine ⟨[m.mem (m.core.sp - 4)], h.symm, ?_, ?_, fun x hx => ?_⟩
    · rw [List.length_append, frameWords_length, hsp, h, List.length_singleton]
      omega
    · rw [holds_append, frameWords_length, hsp, hmem, h]
      refine ⟨holds_storeWords _ _ _, ?_, trivial⟩
      rw [storeWords_outside (by rw [← h, frameWords_length]; omega)]
      congr 1
      omega
    · rw [hmem]
      apply storeWords_outside
      rw [frameWords_length]
      omega

/-- The exception that is handled. -/
def Machine.handled (m : Machine) : Option Exception :=
  [Exception.svCall, .pendSv, .sysTick].find? fun e => ipsr m.core.xpsr = e.number

/-- How many exceptions are active. -/
def Machine.nested (m : Machine) : ℕ :=
  ([Exception.svCall, .pendSv, .sysTick].filter fun e => m.active e).length

/-- The frame at the stack pointer is popped, and the exception is no longer active. -/
def Machine.unstacked (m : Machine) (stkalign : Bool) (e : Exception) : Machine :=
  let w := fun n => m.mem (m.core.sp + 4 * n)
  let free := if stkalign ∧ (w 7).getLsbD 9 ∧ m.core.sp / 4 % 2 = 0 then 4 else 0
  ⟨⟨fun k => if k = 0 then w 0 else if k = 1 then w 1 else if k = 2 then w 2
        else if k = 3 then w 3 else if k = 12 then w 4 else m.core.r k,
      m.core.sp + 32 + free, w 5, w 6, w 7 &&& ~~~ 0x200⟩,
    m.shcsr &&& ~~~ e.mask, m.mem⟩

/--
Return from the exception that is handled.  A return that does not fit the active exceptions or
the number in the frame is a usage fault.
-/
def exceptionReturn (stkalign : Bool) (ret : Word) : Exec Machine Unit := do
  let m ← get
  match m.handled with
  | none => fault (.wild "exception return")
  | some e =>
      let thread : Bool := ret = returnThread
      if m.active e ∧ (thread ∧ m.nested = 1 ∨ ret = returnHandler) then
        modify fun m => m.unstacked stkalign e
        let m ← get
        assert (thread ↔ ipsr m.core.xpsr = 0) "INVPC"
      else fault (.wild "exception return")

/-! ### Returning -/

section

variable {m : Machine} {e : Exception} {stkalign pad : Bool} {w : Word}

/-- The bit for the padding is not in the register. -/
theorem frame_xpsr (h : w.getLsbD 9 = false) (pad : Bool) :
  (w ||| if pad then 0x200 else 0) &&& ~~~ 0x200 = w
  := by
  have h200 : ∀ i < 32, (0x200 : Word).getLsbD i = decide (i = 9) := by decide
  apply BitVec.eq_of_getLsbD_eq
  intro i hi
  rw [BitVec.getLsbD_and, BitVec.getLsbD_or, BitVec.getLsbD_not, h200 i hi]
  by_cases h9 : i = 9
  · subst h9
    rw [h]
    simp
  · rw [decide_eq_false h9, decide_eq_true hi]
    cases pad with
    | false => simp
    | true => rw [if_pos rfl, h200 i hi, decide_eq_false h9, Bool.or_false, Bool.not_false,
        Bool.and_self, Bool.and_true]

theorem frame_pad (h : w.getLsbD 9 = false) (pad : Bool) :
  (w ||| if pad then 0x200 else 0).getLsbD 9 = pad
  := by
  rw [BitVec.getLsbD_or, h, Bool.false_or]
  cases pad <;> rfl

/-- A bit of `SHCSR` after the return from an exception. -/
theorem deactivated_active (w : Word) (e e' : Exception) :
  (w &&& ~~~ e.mask).getLsbD e'.bit = (w.getLsbD e'.bit && decide (e' ≠ e))
  := by
  have hmask : e.mask.getLsbD e'.bit = decide (e' = e) := by cases e <;> cases e' <;> decide
  have hlt : e'.bit < 32 := by cases e' <;> decide
  rw [BitVec.getLsbD_and, BitVec.getLsbD_not, hmask, decide_eq_true hlt]
  simp

/-- The active bits once an exception is entered. -/
theorem activated_active (w : Word) (e e' : Exception) :
  (w ||| e.mask).getLsbD e'.bit = (w.getLsbD e'.bit || decide (e' = e))
  := by
  have hmask : e.mask.getLsbD e'.bit = decide (e' = e) := by cases e <;> cases e' <;> decide
  rw [BitVec.getLsbD_or, hmask]

/-- The number of an exception that was entered. -/
theorem ipsr_number (w : Word) (e : Exception) :
  ipsr ((w &&& ~~~ 0x1ff) ||| e.number) = e.number
  := by
  have h : e.number &&& 0x1ff = e.number := by cases e <;> rfl
  rw [ipsr, BitVec.and_or_distrib_right, h, BitVec.and_assoc]
  simp

theorem Machine.handled_eq (h : ipsr m.core.xpsr = e.number) :
  m.handled = some e
  := by
  rw [Machine.handled, h]
  cases e <;> rfl

/-- The registers that the processor stacks. -/
def stacked : List (Fin 13) := [0, 1, 2, 3, 12]

instance decidableStacked (k : Fin 13) : Decidable (k ∈ stacked) :=
  inferInstanceAs (Decidable (k ∈ [0, 1, 2, 3, 12]))

/-- A return with the value that fits the frame has the effect of the entry undone. -/
theorem exceptionReturn_returns {c : Core} (hnumber : ipsr m.core.xpsr = e.number)
    (hactive : m.active e = true) (hframe : Holds m.mem m.core.sp (frameWords c pad))
    (hpad : pad = true → stkalign = true ∧ m.core.sp / 4 % 2 = 0)
    (hbit : c.xpsr.getLsbD 9 = false) (hnested : ipsr c.xpsr = 0 → m.nested = 1) :
  Returns m (exceptionReturn stkalign (excReturn c.xpsr)) fun _ m' =>
    m' = ⟨⟨fun k => if k ∈ stacked then c.r k else m.core.r k,
        m.core.sp + 32 + if pad then 4 else 0, c.lr, c.pc, c.xpsr⟩,
      m.shcsr &&& ~~~ e.mask, m.mem⟩
  := by
  obtain ⟨h0, h1, h2, h3, h12, hlr, hpc, hxpsr, -⟩ := hframe
  have hret : excReturn c.xpsr = returnThread ↔ ipsr c.xpsr = 0 := by
    rw [excReturn]
    split
    next h => exact iff_of_true rfl h
    next h => exact iff_of_false (by decide) h
  have hback : m.unstacked stkalign e = ⟨⟨fun k => if k ∈ stacked then c.r k else m.core.r k,
        m.core.sp + 32 + if pad then 4 else 0, c.lr, c.pc, c.xpsr⟩,
      m.shcsr &&& ~~~ e.mask, m.mem⟩ := by
    have hfree : (if stkalign ∧ (m.mem (m.core.sp + 4 * 7)).getLsbD 9 ∧ m.core.sp / 4 % 2 = 0
        then 4 else 0) = if pad then 4 else 0 := by
      rw [hxpsr, frame_pad hbit]
      cases hp : pad with
      | false => simp
      | true => simp [hpad hp]
    rw [Machine.unstacked]
    dsimp only
    rw [hfree, hxpsr, frame_xpsr hbit]
    congr 2
    funext k
    simp only [stacked, List.mem_cons, List.not_mem_nil, or_false]
    split_ifs <;> simp_all
  refine .get ?_
  rw [Machine.handled_eq hnumber]
  dsimp only
  rw [if_pos]
  · refine ⟨(), _, (bind_done (modify_apply _ _)).trans (assert_pos ?_ _ _), hback⟩
    rw [hback, decide_eq_true_iff]
    exact hret
  · refine ⟨hactive, ?_⟩
    by_cases h : ipsr c.xpsr = 0
    · exact .inl ⟨decide_eq_true (hret.mpr h), hnested h⟩
    · exact .inr (if_neg h)

end

end Armv7m
