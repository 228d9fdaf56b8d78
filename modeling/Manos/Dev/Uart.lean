import Manos.Dev.Fifo
import Manos.Lib.Run

/-!
# The transmit path of the uart

The functions of `uart.c` of the K70 that transmit and receive, and the runs of their callers
together with the interrupt handler.  A critical region and the interrupt handler are steps.
-/

namespace Dev

open Exec

/-! ### The functions of `uart.c` -/

/-- `UART_C2_TIE_MASK` -/
def uartC2Tie : BitVec 8 := 0x80

/-- `UART_C2_RIE_MASK` -/
def uartC2Rie : BitVec 8 := 0x20

/-- `UART_S1_TDRE_MASK` -/
def uartS1Tdre : BitVec 32 := 0x80

/-- `UART_S1_RDRF_MASK` -/
def uartS1Rdrf : BitVec 32 := 0x20

/-- The queues and the registers of a uart. -/
structure K70Uart where
  inQ : Option FifoQ
  outQ : Option FifoQ
  c2 : BitVec 8
  /-- the bytes that were stored to `UART_D` -/
  sent : List Byte

/-- What the interrupt handler does besides. -/
inductive UartEvent where
  /-- it prints the status -/
  | weird (status : BitVec 32)
  /-- it posts `SigAbort` to the running process -/
  | abort
  /-- it posts `SigStop` to the running process -/
  | stop
deriving DecidableEq

namespace K70Uart

/-- A program on `inQ`. -/
def onInQ {α : Type} (x : Exec (Option FifoQ) α) : Exec K70Uart α :=
  onPart K70Uart.inQ (fun q uart => { uart with inQ := q }) x

/-- A program on `outQ`. -/
def onOutQ {α : Type} (x : Exec (Option FifoQ) α) : Exec K70Uart α :=
  onPart K70Uart.outQ (fun q uart => { uart with outQ := q }) x

/-- Whether the interrupt of the transmitter is enabled. -/
def tie (uart : K70Uart) : Bool := uart.c2 &&& uartC2Tie ≠ 0

end K70Uart

open K70Uart

/-- What `k70UartPower` does to the queues, with the memory that the allocator gives. -/
def k70UartPower (memIn memOut : Option (ℕ → Byte)) : Exec K70Uart Unit :=
  modify fun uart => { uart with inQ := newFifoQ 128 memIn, outQ := newFifoQ 128 memOut }

/-- What `k70UartEnable` does to the register, with the bits of the transmitter and the receiver. -/
def k70UartEnable : Exec K70Uart Unit :=
  modify fun uart => { uart with c2 := uart.c2 ||| (0x08 ||| 0x04 ||| uartC2Rie) }

/--
A turn of the loop of `k70UartPutc` from the start of the critical region on, which is the last
one if the character was put into the queue.
-/
def putcTurn (c : Byte) : Exec K70Uart Bool := do
  if ← onOutQ (enqueueFifoQ c) then
    modify fun uart => { uart with c2 := uart.c2 ||| uartC2Tie }
    return true
  else return false

/-- `UART_D_REG(ctrl->mmap) = c`, if there is a character -/
def storeD (c : Option Byte) : Exec K70Uart Unit :=
  modify fun uart => { uart with sent := uart.sent ++ c.toList }

/-- Clear the interrupt of the transmitter if `outQ` is empty. -/
def clearTie : Exec K70Uart Unit := do
  let uart ← get
  match uart.outQ with
  | none => fault (.null "outQ")
  | some q =>
      when q.isEmpty
        (modify fun uart => { uart with c2 := uart.c2 &&& ~~~ uartC2Tie })

/-- The part of `k70UartInterrupt` for the transmitter. -/
def transmit (status : BitVec 32) : Exec K70Uart Unit := do
  let uart ← get
  when (uart.tie ∧ status &&& uartS1Tdre ≠ 0) do
    let c ← onOutQ dequeueFifoQ
    storeD c
    clearTie

/-- The `switch` of `k70UartInterrupt`; a signal is posted if a process is running. -/
def received (c : Byte) (running : Bool) : Exec K70Uart (List UartEvent) :=
  if c = 0x03 then return if running then [.abort] else []
  else if c = 0x04 then do
    let _ ← onInQ (enqueueFifoQ 0)
    return []
  else if c = 0x1a then return if running then [.stop] else []
  else do
    let _ ← onInQ (enqueueFifoQ c)
    return []

/-- The part of `k70UartInterrupt` for the receiver, with what is in `UART_D`. -/
def receive (status : BitVec 32) (c : Byte) (running : Bool) :
    Exec K70Uart (List UartEvent) := do
  let uart ← get
  if uart.c2 &&& uartC2Rie ≠ 0 ∧ status &&& uartS1Rdrf ≠ 0 then received c running
  else return []

/-- The message for an interrupt for which there is no reason. -/
def weird (status : BitVec 32) : List UartEvent :=
  if status &&& uartS1Tdre = 0 ∧ status &&& uartS1Rdrf = 0 then [.weird status] else []

/-- `k70UartInterrupt` -/
def k70UartInterrupt (status : BitVec 32) (c : Byte) (running : Bool) :
    Exec K70Uart (List UartEvent) := do
  transmit status
  let events ← receive status c running
  return weird status ++ events

/-- A status in which a character can be transmitted and none was received. -/
def statusTdre : BitVec 32 := 0x80

/--
`k70UartPutc` without other callers: when the queue is full, the loop goes on until the interrupt
handler took a character.
-/
def k70UartPutc (c : Byte) : Exec K70Uart Unit := do
  if ← putcTurn c then return ()
  else do
    let _ ← k70UartInterrupt statusTdre 0 false
    if ← putcTurn c then return ()
    else fault .endless

/-! ### What the functions do -/

/-- The queues are well formed, and the interrupt is enabled if there is something to transmit. -/
structure K70Uart.Ready (uart : K70Uart) : Prop where
  inQ : ∃ q, uart.inQ = some q ∧ q.WellFormed
  outQ : ∃ q, uart.outQ = some q ∧ q.WellFormed ∧ (q.contents ≠ [] → uart.tie = true)

/-- The bytes in `outQ`. -/
def K70Uart.waiting (uart : K70Uart) : List Byte := (uart.outQ.map FifoQ.contents).getD []

variable {uart : K70Uart}

theorem tie_set (c2 : BitVec 8) :
  (c2 ||| uartC2Tie) &&& uartC2Tie ≠ 0
  := by
  revert c2
  decide +kernel

theorem waiting_eq {q : FifoQ} (h : uart.outQ = some q) :
  uart.waiting = q.contents
  := by
  rw [K70Uart.waiting, h]
  rfl

/-- Once it has power, a uart is ready, and nothing is waiting. -/
theorem k70UartPower_returns (uart : K70Uart) (memIn memOut : ℕ → Byte) :
  Returns uart (k70UartPower (some memIn) (some memOut)) fun _ uart' =>
    uart'.Ready ∧ uart'.waiting = [] ∧ uart'.sent = uart.sent
  := by
  have hlt : 0 < 128 := by decide
  refine ⟨(), _, rfl, ⟨⟨_, rfl, ?_⟩, ⟨_, rfl, ?_, ?_⟩⟩, rfl, rfl⟩
  · apply clearFifoQ_wellFormed hlt
  · apply clearFifoQ_wellFormed hlt
  · intro h
    exact absurd (clearFifoQ_contents _) h

theorem k70UartEnable_returns (h : uart.Ready) :
  Returns uart k70UartEnable fun _ uart' =>
    uart'.Ready ∧ uart'.waiting = uart.waiting ∧ uart'.sent = uart.sent
  := by
  have htie (c2 : BitVec 8) :
      (c2 ||| (0x08 ||| 0x04 ||| uartC2Rie)) &&& uartC2Tie = c2 &&& uartC2Tie := by
    revert c2
    decide +kernel
  obtain ⟨q, hq, hw, ht⟩ := h.outQ
  refine ⟨(), _, rfl, ⟨h.inQ, q, hq, hw, fun hne => ?_⟩, rfl, rfl⟩
  rw [← ht hne, K70Uart.tie, K70Uart.tie, htie]

/-- A turn of the loop puts the character behind the others, or does nothing. -/
theorem putcTurn_returns (h : uart.Ready) (c : Byte) :
  Returns uart (putcTurn c) fun ok uart' => uart'.Ready ∧ uart'.sent = uart.sent ∧
    (ok = true ∧ uart'.waiting = uart.waiting ++ [c] ∨
      ok = false ∧ isFullFifoQ uart.outQ = true ∧ uart' = uart)
  := by
  obtain ⟨q, hq, hw, ht⟩ := h.outQ
  cases hfull : isFullFifoQ (some q) with
  | false =>
      have hput : onOutQ (enqueueFifoQ c) uart = .done true { uart with outQ := some (q.put c) } := by
        rw [onOutQ, onPart, hq, enqueueFifoQ_put hw hfull]
      refine .step hput ⟨true, _, rfl, ?_, rfl, .inl ⟨rfl, ?_⟩⟩
      · refine ⟨h.inQ, q.put c, rfl, FifoQ.put_wellFormed hw c, fun _ => ?_⟩
        apply decide_eq_true (tie_set _)
      · rw [waiting_eq hq, waiting_eq (q := q.put c) rfl, FifoQ.contents_put hw hfull]
  | true =>
      have hput : onOutQ (enqueueFifoQ c) uart = .done false uart := by
        rw [onOutQ, onPart, hq, enqueueFifoQ_full hfull]
        simp only [← hq]
      refine .step hput ⟨false, _, rfl, h, rfl, .inr ⟨rfl, ?_, rfl⟩⟩
      rw [hq]
      apply hfull

/-- The handler clears the interrupt of the transmitter only when there is nothing to transmit. -/
theorem clearTie_returns {q : FifoQ} (hin : ∃ q, uart.inQ = some q ∧ q.WellFormed)
    (hq : uart.outQ = some q) (hw : q.WellFormed) (ht : uart.tie = true) :
  Returns uart clearTie fun _ uart' => uart'.Ready ∧ uart'.outQ = uart.outQ ∧
    uart'.sent = uart.sent
  := by
  refine .get ?_
  rw [hq]
  simp only
  by_cases he : q.isEmpty = true
  · rw [when_pos he]
    refine ⟨(), _, rfl, ⟨hin, q, hq, hw, fun hne => ?_⟩, hq, rfl⟩
    exact absurd ((FifoQ.contents_eq_nil_iff hw).mpr he) hne
  · rw [when_neg he]
    exact .pure ⟨⟨hin, q, hq, hw, fun _ => ht⟩, hq, rfl⟩

/-- The transmitter takes the first byte, if there is one. -/
theorem transmit_returns (h : uart.Ready) (status : BitVec 32) :
  Returns uart (transmit status) fun _ uart' => uart'.Ready ∧
    uart'.sent ++ uart'.waiting = uart.sent ++ uart.waiting ∧
    (uart.tie = true → status &&& uartS1Tdre ≠ 0 → isFullFifoQ uart.outQ = true →
      isFullFifoQ uart'.outQ = false)
  := by
  obtain ⟨q, hq, hw, ht⟩ := h.outQ
  refine .get ?_
  by_cases hon : uart.tie = true ∧ status &&& uartS1Tdre ≠ 0
  · rw [when_pos hon]
    cases he : q.isEmpty with
    | true =>
        have hget : onOutQ dequeueFifoQ uart = .done none uart := by
          rw [onOutQ, onPart, hq, dequeueFifoQ_empty he]
          simp only [← hq]
        refine .step hget (.modify fun uart₁ h₁ => ?_)
        have hin₁ : ∃ q, uart₁.inQ = some q ∧ q.WellFormed := by rw [h₁]; exact h.inQ
        have hq₁ : uart₁.outQ = some q := by rw [h₁]; exact hq
        have ht₁ : uart₁.tie = true := by rw [h₁]; exact hon.1
        refine (clearTie_returns hin₁ hq₁ hw ht₁).mono ?_
        rintro - uart₂ ⟨hr, hout, hsent⟩
        refine ⟨hr, ?_, fun _ _ hfull => ?_⟩
        · rw [hsent, h₁, waiting_eq hq, waiting_eq (hout.trans hq₁), Option.toList_none,
            List.append_nil]
        · rw [hq, isFullFifoQ, Option.any_some, he] at hfull
          simp at hfull
    | false =>
        have hget : onOutQ dequeueFifoQ uart =
            .done (some (q.buf q.readOffset)) { uart with outQ := some q.take } := by
          rw [onOutQ, onPart, hq, dequeueFifoQ_take hw he]
        refine .step hget (.modify fun uart₁ h₁ => ?_)
        have hin₁ : ∃ q, uart₁.inQ = some q ∧ q.WellFormed := by rw [h₁]; exact h.inQ
        have hq₁ : uart₁.outQ = some q.take := by rw [h₁]
        have ht₁ : uart₁.tie = true := by rw [h₁]; exact hon.1
        refine (clearTie_returns hin₁ hq₁ (FifoQ.take_wellFormed hw) ht₁).mono ?_
        rintro - uart₂ ⟨hr, hout, hsent⟩
        refine ⟨hr, ?_, fun _ _ _ => ?_⟩
        · rw [hsent, h₁, waiting_eq hq, waiting_eq (hout.trans hq₁), FifoQ.contents_take hw he,
            Option.toList_some, List.append_assoc, List.singleton_append]
        · rw [hout, hq₁]
          apply isFullFifoQ_take
  · rw [when_neg hon]
    refine .pure ⟨h, rfl, fun htie hs _ => ?_⟩
    exact absurd ⟨htie, hs⟩ hon

/-- The two uarts differ in `inQ` at most. -/
structure K70Uart.SameOut (uart uart' : K70Uart) : Prop where
  outQ : uart'.outQ = uart.outQ
  c2 : uart'.c2 = uart.c2
  sent : uart'.sent = uart.sent

theorem enqueue_inQ_returns (h : uart.Ready) (c : Byte) :
  Returns uart (onInQ (enqueueFifoQ c)) fun _ uart' => uart'.Ready ∧ uart.SameOut uart'
  := by
  obtain ⟨q, hq, hw⟩ := h.inQ
  cases hfull : isFullFifoQ (some q) with
  | false =>
      have hput : onInQ (enqueueFifoQ c) uart = .done true { uart with inQ := some (q.put c) } := by
        rw [onInQ, onPart, hq, enqueueFifoQ_put hw hfull]
      exact ⟨_, _, hput, ⟨⟨_, rfl, FifoQ.put_wellFormed hw c⟩, h.outQ⟩, rfl, rfl, rfl⟩
  | true =>
      have hput : onInQ (enqueueFifoQ c) uart = .done false uart := by
        rw [onInQ, onPart, hq, enqueueFifoQ_full hfull]
        simp only [← hq]
      exact ⟨_, _, hput, h, rfl, rfl, rfl⟩

/-- The receiver leaves the transmit path alone. -/
theorem receive_returns (h : uart.Ready) (status : BitVec 32) (c : Byte) (running : Bool) :
  Returns uart (receive status c running) fun _ uart' => uart'.Ready ∧ uart.SameOut uart'
  := by
  refine .get ?_
  split
  · unfold received
    split
    · exact .pure ⟨h, rfl, rfl, rfl⟩
    split
    · refine .bind (enqueue_inQ_returns h 0) ?_
      rintro - uart' huart
      exact .pure huart
    split
    · exact .pure ⟨h, rfl, rfl, rfl⟩
    · refine .bind (enqueue_inQ_returns h c) ?_
      rintro - uart' huart
      exact .pure huart
  · exact .pure ⟨h, rfl, rfl, rfl⟩

/-- The interrupt handler moves bytes from `outQ` to the transmitter, and keeps their order. -/
theorem k70UartInterrupt_returns (h : uart.Ready) (status : BitVec 32) (c : Byte)
    (running : Bool) :
  Returns uart (k70UartInterrupt status c running) fun _ uart' => uart'.Ready ∧
    uart'.sent ++ uart'.waiting = uart.sent ++ uart.waiting ∧
    (uart.tie = true → status &&& uartS1Tdre ≠ 0 → isFullFifoQ uart.outQ = true →
      isFullFifoQ uart'.outQ = false)
  := by
  refine .bind (transmit_returns h status) ?_
  rintro - uart' ⟨hr, hbytes, hfull⟩
  refine .bind (receive_returns hr status c running) ?_
  rintro events uart'' ⟨hr', hsame⟩
  refine .pure ⟨hr', ?_, ?_⟩
  · rw [K70Uart.waiting, hsame.sent, hsame.outQ]
    apply hbytes
  · rw [hsame.outQ]
    apply hfull

/-- A character is put behind those that are waiting. -/
theorem k70UartPutc_returns (h : uart.Ready) (c : Byte) :
  Returns uart (k70UartPutc c) fun _ uart' => uart'.Ready ∧
    uart'.sent ++ uart'.waiting = uart.sent ++ uart.waiting ++ [c]
  := by
  refine .bind (putcTurn_returns h c) ?_
  rintro ok uart' ⟨hr, hsent, ⟨rfl, hput⟩ | ⟨rfl, hfull, rfl⟩⟩
  · refine .pure ⟨hr, ?_⟩
    rw [hsent, hput, List.append_assoc]
  · rw [if_neg Bool.false_ne_true]
    refine .bind (k70UartInterrupt_returns h statusTdre 0 false) ?_
    rintro - uart' ⟨hr', hbytes, htake⟩
    refine .bind (putcTurn_returns hr' c) ?_
    rintro ok uart'' ⟨hr'', hsent', ⟨rfl, hput⟩ | ⟨-, hfull', -⟩⟩
    · refine .pure ⟨hr'', ?_⟩
      rw [hsent', hput, ← List.append_assoc, hbytes]
    · obtain ⟨q, hq, hw, ht⟩ := h.outQ
      have hne : q.contents ≠ [] := by
        intro hnil
        rw [hq, isFullFifoQ, Option.any_some, (FifoQ.contents_eq_nil_iff hw).mp hnil] at hfull
        simp at hfull
      rw [htake (ht hne) (by decide) hfull] at hfull'
      contradiction

end Dev
