import Manos.Lib.CStr
import Manos.Lib.Exec
import Manos.Lib.Word32

/-!
# The baud rate

The function of `uart.c` of the K70 that programs the baud rate.  The divisor of the clock has
thirteen bits, of which `BDH` holds the high ones and `BDL` the low ones; `C4` holds the fraction
that is left, in parts of 32.
-/

namespace Dev

open Exec

/-! ### The registers -/

/-- A value in a field of a register of eight bits. -/
def regField (shift : ℕ) (mask : Byte) (x : ℕ) : Byte := (BitVec.ofNat 8 x <<< shift) &&& mask

/-- `UART_BDH_SBR_MASK` -/
def uartBDHSbrMask : Byte := 0x1f

/-- `UART_BDH_SBR` -/
def uartBDHSbr (x : ℕ) : Byte := regField 0 uartBDHSbrMask x

/-- `UART_BDL_SBR_MASK` -/
def uartBDLSbrMask : ℕ := 0xff

/-- `UART_C4_BRFA_MASK` -/
def uartC4BrfaMask : Byte := 0x1f

/-- `UART_C4_BRFA` -/
def uartC4Brfa (x : ℕ) : Byte := regField 0 uartC4BrfaMask x

/-- The fields of a uart, and its registers, that tell the baud rate. -/
structure BaudUart where
  clock : ℕ
  baud : ℕ
  bdh : Byte
  bdl : Byte
  c4 : Byte
  /-- whether `errno` was set to `EINVAL` -/
  einval : Bool

/-! ### The function -/

/-- A division of unsigned numbers. -/
def divide {σ : Type} (a b : ℕ) : Exec σ ℕ := if b = 0 then fault .zeroDivision else return a / b

/-- The part of `k70UartBaud` that stores the divisor, high bits first; it returns `newSBR`. -/
def storeSBR (baud : ℕ) : Exec BaudUart ℕ := do
  let uart ← get
  let quotient ← divide uart.clock baud
  let newSBR := quotient / 16 % 2 ^ 16
  let saveBDH := uart.bdh &&& ~~~ uartBDHSbr 0x1f
  modify fun uart => { uart with bdh := saveBDH ||| uartBDHSbr ((newSBR &&& 1000) >>> 8) }
  modify fun uart => { uart with bdl := .ofNat 8 (newSBR &&& uartBDLSbrMask) }
  return newSBR

/-- The part of `k70UartBaud` that stores the fraction. -/
def storeBRFA (baud newSBR : ℕ) : Exec BaudUart Unit := do
  let uart ← get
  let quotient ← divide (Word32.mul (uart.clock / 1000) 32000) (Word32.mul baud 16)
  let newBRFA := Word32.sub quotient (newSBR * 32) % 2 ^ 16
  let saveC4 := uart.c4 &&& ~~~ uartC4Brfa 0x1f
  modify fun uart => { uart with c4 := saveC4 ||| uartC4Brfa newBRFA }

/-- `k70UartBaud` -/
def k70UartBaud (baud : ℕ) : Exec BaudUart ℤ := do
  let uart ← get
  if uart.clock = 0 then
    modify fun uart => { uart with einval := true }
    return -1
  else
    let newSBR ← storeSBR baud
    storeBRFA baud newSBR
    modify fun uart => { uart with baud := baud }
    return 0

/-! ### Fields -/

variable {uart : BaudUart} {baud : ℕ}

/-- To store a field in a register: the bits under the mask are those of the field, the others are
as they were. -/
theorem field_replaced (reg x mask : Byte) :
  ((reg &&& ~~~ mask) ||| (x &&& mask)) &&& mask = x &&& mask
    ∧ ((reg &&& ~~~ mask) ||| (x &&& mask)) &&& ~~~ mask = reg &&& ~~~ mask
  := by
  constructor
  · ext i hi
    simp only [BitVec.getElem_and, BitVec.getElem_or, BitVec.getElem_not]
    cases mask[i] <;> simp
  · ext i hi
    simp only [BitVec.getElem_and, BitVec.getElem_or, BitVec.getElem_not]
    cases mask[i] <;> simp

/-- A value in a field at the low end of a register. -/
theorem regField_zero (mask : Byte) (x : ℕ) :
  regField 0 mask x = BitVec.ofNat 8 x &&& mask
  := by
  rw [regField, BitVec.shiftLeft_zero]

theorem uartBDHSbr_eq (x : ℕ) :
  uartBDHSbr x = BitVec.ofNat 8 x &&& uartBDHSbrMask
  := regField_zero uartBDHSbrMask x

theorem uartC4Brfa_eq (x : ℕ) :
  uartC4Brfa x = BitVec.ofNat 8 x &&& uartC4BrfaMask
  := regField_zero uartC4BrfaMask x

/-- The value of the low five bits. -/
theorem toNat_lowBits (x : ℕ) :
  (BitVec.ofNat 8 x &&& 0x1f).toNat = x % 32
  := by
  have hand : x % 256 &&& 31 = x % 256 % 32 := Nat.and_two_pow_sub_one_eq_mod (x % 256) 5
  rw [BitVec.toNat_and, BitVec.toNat_ofNat]
  apply hand.trans
  omega

/-- What the mask in decimal leaves of the high bits of the divisor. -/
theorem highBits_masked (n : ℕ) :
  (n &&& 1000) >>> 8 = n / 256 % 4
  := by
  apply Nat.eq_of_testBit_eq
  intro i
  have hmod : n / 256 % 4 = (n >>> 8) % 2 ^ 2 :=
    congrArg (· % 4) (Nat.shiftRight_eq_div_pow n 8).symm
  rw [hmod, Nat.testBit_shiftRight, Nat.testBit_and, Nat.testBit_mod_two_pow,
    Nat.testBit_shiftRight, Bool.and_comm]
  congr 1
  match i with
  | 0 => rfl
  | 1 => rfl
  | i + 2 =>
      have hlt : 1000 < 2 ^ (8 + (i + 2)) := by
        apply Nat.lt_of_lt_of_le (by decide : 1000 < 2 ^ 10)
        apply Nat.pow_le_pow_right (by decide)
        omega
      rw [Nat.testBit_lt_two_pow hlt]
      simp

/-- The part of a quotient in units of a part: 32 times the whole is taken off. -/
theorem quotient_fraction (c : ℕ) {b : ℕ} :
  32 * c / (16 * b) = 2 * c / b ∧ 2 * c / b / 32 = c / (16 * b)
  := by
  constructor
  · have hc : 32 * c = 16 * (2 * c) := by omega
    rw [hc, Nat.mul_div_mul_left _ _ (by decide)]
  · have hb : b * 32 = 2 * (16 * b) := by omega
    rw [Nat.div_div_eq_div_mul, hb, Nat.mul_div_mul_left _ _ (by decide)]

/-! ### What is programmed -/

/-- `clock` of the uart of the K70 -/
def k70UartClock : ℕ := 60000000

/-- The divisor for a baud rate, which fits into its thirteen bits. -/
def Programmable (baud : ℕ) : Prop :=
  1 ≤ k70UartClock / (16 * baud) ∧ k70UartClock / (16 * baud) ≤ 8191

instance (baud : ℕ) : Decidable (Programmable baud) := inferInstanceAs (Decidable (_ ∧ _))

/-- The registers after the baud rate is programmed. -/
structure Programmed (baud : ℕ) (uart uart' : BaudUart) : Prop where
  divisor : (uart'.bdh &&& uartBDHSbrMask).toNat * 256 + uart'.bdl.toNat =
    k70UartClock / (16 * baud)
  fraction : (uart'.c4 &&& uartC4BrfaMask).toNat = 2 * k70UartClock / baud % 32
  bdhRest : uart'.bdh &&& ~~~ uartBDHSbrMask = uart.bdh &&& ~~~ uartBDHSbrMask
  c4Rest : uart'.c4 &&& ~~~ uartC4BrfaMask = uart.c4 &&& ~~~ uartC4BrfaMask

theorem Programmable.bounds (h : Programmable baud) :
  458 ≤ baud ∧ baud ≤ 3750000
  := by
  obtain ⟨hlow, hhigh⟩ := h
  rw [k70UartClock] at hlow hhigh
  have hpos : 0 < 16 * baud := by
    by_contra hzero
    rw [Nat.eq_zero_of_not_pos hzero, Nat.div_zero] at hlow
    contradiction
  have hle := (Nat.le_div_iff_mul_le hpos).mp hlow
  have hlt := (Nat.div_lt_iff_lt_mul hpos).mp (Nat.lt_succ_of_le hhigh)
  omega

theorem divide_done {σ : Type} {b : ℕ} (hb : b ≠ 0) (a : ℕ) (s : σ) :
  divide a b s = .done (a / b) s
  := by
  rw [divide, if_neg hb, pure_apply]

/-- The divisor that is stored is the one for the rate, without its bits 10 to 12. -/
theorem storeSBR_done (h : Programmable baud) (hclock : uart.clock = k70UartClock) :
  storeSBR baud uart = .done (k70UartClock / (16 * baud))
    { uart with
      bdh := (uart.bdh &&& ~~~ uartBDHSbr 0x1f) |||
        uartBDHSbr (k70UartClock / (16 * baud) / 256 % 4)
      bdl := .ofNat 8 (k70UartClock / (16 * baud)) }
  := by
  obtain ⟨hlow, hhigh⟩ := h.bounds
  have hsbr : k70UartClock / baud / 16 % 2 ^ 16 = k70UartClock / (16 * baud) := by
    have hle := h.2
    rw [Nat.div_div_eq_div_mul, Nat.mul_comm baud 16]
    exact Nat.mod_eq_of_lt (by omega)
  have hbdl : BitVec.ofNat 8 (k70UartClock / (16 * baud) &&& uartBDLSbrMask) =
      BitVec.ofNat 8 (k70UartClock / (16 * baud)) := by
    have hand (n : ℕ) : n &&& uartBDLSbrMask = n % 2 ^ 8 := Nat.and_two_pow_sub_one_eq_mod n 8
    apply BitVec.eq_of_toNat_eq
    rw [hand, BitVec.toNat_ofNat, BitVec.toNat_ofNat, Nat.mod_mod]
  rw [storeSBR, bind_done (get_apply uart), hclock,
    bind_done (divide_done (by omega : baud ≠ 0) k70UartClock uart)]
  simp only [hsbr, highBits_masked, hbdl, bind_apply, modify_apply, pure_apply, hclock]

/-- The fraction that is stored is the rest of the divisor. -/
theorem storeBRFA_done (uart : BaudUart) (h : Programmable baud) (hclock : uart.clock = k70UartClock) :
  storeBRFA baud (k70UartClock / (16 * baud)) uart = .done ()
    { uart with
      c4 := (uart.c4 &&& ~~~ uartC4Brfa 0x1f) ||| uartC4Brfa (2 * k70UartClock / baud % 32) }
  := by
  obtain ⟨hlow, hhigh⟩ := h.bounds
  have hmul : Word32.mul baud 16 = 16 * baud := by
    rw [Word32.mul, Nat.mul_comm]
    exact Nat.mod_eq_of_lt (by omega)
  have hclock' : Word32.mul (k70UartClock / 1000) 32000 = 32 * k70UartClock := by decide
  obtain ⟨hwhole, hunits⟩ := quotient_fraction k70UartClock (b := baud)
  have hlt : 2 * k70UartClock / baud < 2 ^ 32 :=
    Nat.lt_of_le_of_lt (Nat.div_le_self _ _) (by decide)
  have hbrfa : Word32.sub (2 * k70UartClock / baud) (k70UartClock / (16 * baud) * 32) % 2 ^ 16 =
      2 * k70UartClock / baud % 32 := by
    have hsplit := Nat.div_add_mod (2 * k70UartClock / baud) 32
    rw [hunits] at hsplit
    rw [Word32.sub_of_le (by omega) hlt]
    omega
  rw [storeBRFA, bind_done (get_apply uart), hclock, hclock', hmul,
    bind_done (divide_done (by omega : 16 * baud ≠ 0) _ uart), hwhole, hbrfa, modify_apply, hclock]

/--
A rate is programmed exactly if it is at least 3663: for lower ones the divisor has one of the bits
that the mask in decimal takes away.
-/
theorem k70UartBaud_exact_iff (h : Programmable baud) (hclock : uart.clock = k70UartClock) :
  Returns uart (k70UartBaud baud) (fun r uart' => r = 0 ∧ Programmed baud uart uart') ↔
    3663 ≤ baud
  := by
  obtain ⟨hlow, hhigh⟩ := h.bounds
  have hne : uart.clock ≠ 0 := by
    rw [hclock]
    decide
  have hsbr := storeSBR_done h hclock
  have hbrfa := storeBRFA_done { uart with
    bdh := (uart.bdh &&& ~~~ uartBDHSbr 0x1f) |||
      uartBDHSbr (k70UartClock / (16 * baud) / 256 % 4)
    bdl := .ofNat 8 (k70UartClock / (16 * baud)) } h hclock
  have hpos : 0 < 16 * baud := by omega
  have hbound : k70UartClock / (16 * baud) < 1024 ↔ 3663 ≤ baud := by
    rw [Nat.div_lt_iff_lt_mul hpos, k70UartClock]
    omega
  rw [k70UartBaud, Returns.get_iff, if_neg hne, Returns.step_iff hsbr,
    Returns.step_iff hbrfa, ← hbound]
  have hsbrMask : uartBDHSbr 0x1f = uartBDHSbrMask := rfl
  have hbrfaMask : uartC4Brfa 0x1f = uartC4BrfaMask := rfl
  rw [hsbrMask, hbrfaMask, uartBDHSbr_eq, uartC4Brfa_eq]
  have hdivisor (n : ℕ) : (BitVec.ofNat 8 (n / 256 % 4) &&& uartBDHSbrMask).toNat * 256 +
      (BitVec.ofNat 8 n).toNat = n % 1024 := by
    rw [uartBDHSbrMask, toNat_lowBits, BitVec.toNat_ofNat]
    omega
  constructor
  · rintro ⟨_, _, ⟨⟩, -, hp⟩
    have hp := hp.divisor
    dsimp only at hp
    rw [(field_replaced _ _ _).1, hdivisor] at hp
    omega
  · intro hlt
    refine ⟨0, _, rfl, rfl, ?_⟩
    constructor
    case divisor =>
      dsimp only
      rw [(field_replaced _ _ _).1, hdivisor]
      exact Nat.mod_eq_of_lt hlt
    case fraction =>
      dsimp only
      rw [(field_replaced _ _ _).1, uartC4BrfaMask, toNat_lowBits, Nat.mod_mod]
    case bdhRest => exact (field_replaced _ _ _).2
    case c4Rest => exact (field_replaced _ _ _).2

/-- The uart of the K70 before its baud rate is programmed. -/
def uart2 : BaudUart := ⟨k70UartClock, 0, 0, 4, 0, false⟩

/-- 115200 baud are programmed. -/
theorem k70UartBaud_exact_iff_fast :
  Returns uart2 (k70UartBaud 115200) fun r uart' => r = 0 ∧ Programmed 115200 uart2 uart'
  := (k70UartBaud_exact_iff (by decide) rfl).mpr (by decide)

/-- For 2400 baud the divisor is 538 instead of 1562. -/
theorem k70UartBaud_not_exact :
  ¬ ∀ (baud : ℕ) (uart : BaudUart), Programmable baud → uart.clock = k70UartClock →
    Returns uart (k70UartBaud baud) fun r uart' => r = 0 ∧ Programmed baud uart uart'
  := by
  intro hclaim
  obtain ⟨r, uart', hrun, -, hp⟩ := hclaim 2400 uart2 (by decide) rfl
  have hstored : k70UartBaud 2400 uart2 = .done 0 ⟨k70UartClock, 2400, 2, 26, 16, false⟩ := by
    rfl
  rw [hstored] at hrun
  cases hrun
  have hdivisor := hp.divisor
  revert hdivisor
  decide

end Dev
