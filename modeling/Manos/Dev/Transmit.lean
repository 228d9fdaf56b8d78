import Manos.Dev.Uart

/-!
# Callers and interrupts

The runs of any number of callers of `k70UartPutc` together with the interrupt handler.  No byte is
lost, bytes keep their order, and while there are bytes to transmit the interrupt is enabled.
-/

namespace Dev

open Exec

/-- The uart, the byte that each caller of `k70UartPutc` is putting, and what was put so far. -/
structure Line (ι : Type) where
  uart : K70Uart
  putting : ι → Option Byte
  /-- the bytes that `k70UartPutc` put into the queue, in this order -/
  accepted : List Byte

/-- What may happen next. -/
inductive LineEvent (ι : Type) where
  /-- a caller calls `k70UartPutc` -/
  | call (i : ι) (c : Byte)
  /-- a caller is in the critical region of `k70UartPutc`; if the byte is put, it returns -/
  | turn (i : ι)
  /-- the interrupt handler runs, with a status, what is in `UART_D`, and whether there is `rp` -/
  | interrupt (status : BitVec 32) (c : Byte) (running : Bool)

variable {ι : Type}

/-- The line after `k70UartPower` got memory for the queues, when nothing was transmitted. -/
def Line.boot (ι : Type) (memIn memOut : ℕ → Byte) (c2 : BitVec 8) : Line ι where
  uart := ⟨newFifoQ 128 (some memIn), newFifoQ 128 (some memOut), c2, []⟩
  putting := fun _ => none
  accepted := []

/-- What holds between two steps. -/
structure Line.Inv (l : Line ι) : Prop where
  ready : l.uart.Ready
  accepted : l.accepted = l.uart.sent ++ l.uart.waiting

theorem Line.boot_inv (memIn memOut : ℕ → Byte) (c2 : BitVec 8) :
  (Line.boot ι memIn memOut c2).Inv
  := by
  obtain ⟨_, uart, hrun, hready, hwaiting, hsent⟩ :=
    k70UartPower_returns ⟨none, none, c2, []⟩ memIn memOut
  cases hrun
  refine ⟨hready, ?_⟩
  rw [Line.boot]
  simp only
  rw [hwaiting]
  rfl

variable [DecidableEq ι] {l l' : Line ι}

/-! ### Steps -/

/-- The line after a turn of the loop of `k70UartPutc`. -/
def Line.afterTurn (l : Line ι) (i : ι) (c : Byte) (ok : Bool) (uart : K70Uart) : Line ι where
  uart := uart
  putting := if ok then Function.update l.putting i none else l.putting
  accepted := if ok then l.accepted ++ [c] else l.accepted

/-- The steps of the line. -/
inductive LineStep (l : Line ι) : LineEvent ι → Line ι → Prop where
  | call {i : ι} {c : Byte} (h : l.putting i = none) :
      LineStep l (.call i c) { l with putting := Function.update l.putting i (some c) }
  | turn {i : ι} {c : Byte} {ok : Bool} {uart : K70Uart} (h : l.putting i = some c)
      (hrun : putcTurn c l.uart = .done ok uart) :
      LineStep l (.turn i) (l.afterTurn i c ok uart)
  | interrupt {status : BitVec 32} {c : Byte} {running : Bool} {events : List UartEvent}
      {uart : K70Uart} (hrun : k70UartInterrupt status c running l.uart = .done events uart) :
      LineStep l (.interrupt status c running) { l with uart := uart }

/-- Every step keeps the invariant. -/
theorem LineStep.inv {e : LineEvent ι} (h : LineStep l e l') (hl : l.Inv) :
  l'.Inv
  := by
  cases h with
  | call h => exact ⟨hl.ready, hl.accepted⟩
  | @turn i c ok uart h hrun =>
      obtain ⟨hready, hsent, hput⟩ := (putcTurn_returns hl.ready c).done hrun
      refine ⟨hready, ?_⟩
      rcases hput with ⟨rfl, hput⟩ | ⟨rfl, -, rfl⟩
      · simp only [Line.afterTurn, if_true]
        rw [hsent, hput, hl.accepted, List.append_assoc]
      · apply hl.accepted
  | interrupt hrun =>
      obtain ⟨hready, hbytes, -⟩ := (k70UartInterrupt_returns hl.ready _ _ _).done hrun
      refine ⟨hready, ?_⟩
      rw [hl.accepted, ← hbytes]

/-- In every state of a run the invariant holds. -/
theorem line_inv {memIn memOut : ℕ → Byte} {c2 : BitVec 8}
    (h : Run.ReachAny LineStep (Line.boot ι memIn memOut c2) l) :
  l.Inv
  := by
  refine h.invariant (Line.boot_inv memIn memOut c2) ?_
  intro l e l' hl _ hs
  exact hs.inv hl

/--
However callers and interrupts take turns, the bytes that were stored to `UART_D` and those in `outQ`
are the bytes that were put, in their order; and while there are bytes in `outQ`, the interrupt is
enabled.
-/
theorem transmit_keeps_bytes {memIn memOut : ℕ → Byte} {c2 : BitVec 8}
    (h : Run.ReachAny LineStep (Line.boot ι memIn memOut c2) l) :
  ∃ q, l.uart.outQ = some q ∧ l.accepted = l.uart.sent ++ q.contents ∧
    (q.contents ≠ [] → l.uart.c2 &&& uartC2Tie ≠ 0)
  := by
  have hl := line_inv h
  obtain ⟨q, hq, -, htie⟩ := hl.ready.outQ
  refine ⟨q, hq, ?_, fun hne => of_decide_eq_true (htie hne)⟩
  rw [hl.accepted, waiting_eq hq]

/-- A caller puts two bytes, and the first one is transmitted. -/
theorem transmit_keeps_bytes_two :
  ∃ l : Line Unit, l.accepted = [0x61, 0x62] ∧ ∃ q, l.uart.outQ = some q ∧
    l.accepted = l.uart.sent ++ q.contents ∧ (q.contents ≠ [] → l.uart.c2 &&& uartC2Tie ≠ 0)
  := by
  have h₀ : Run.ReachAny LineStep (Line.boot Unit (fun _ => 0) (fun _ => 0) 0) _ := .refl _
  have h₁ := h₀.snoc (.call (i := ()) (c := 0x61) rfl)
  have h₂ := h₁.snoc (.turn (i := ()) rfl rfl)
  have h₃ := h₂.snoc (e := .interrupt 0x80 0 true) (.interrupt rfl)
  have h₄ := h₃.snoc (.call (i := ()) (c := 0x62) rfl)
  have h₅ := h₄.snoc (.turn (i := ()) rfl rfl)
  exact ⟨_, rfl, transmit_keeps_bytes h₅⟩

/-! ### Progress -/

/-- A step of a caller or of the interrupt handler never stops at a fault. -/
theorem line_progress {memIn memOut : ℕ → Byte} {c2 : BitVec 8}
    (h : Run.ReachAny LineStep (Line.boot ι memIn memOut c2) l) :
  (∀ i c, l.putting i = some c → ∃ l', LineStep l (.turn i) l') ∧
    ∀ status c running, ∃ l', LineStep l (.interrupt status c running) l'
  := by
  have hl := line_inv h
  constructor
  · intro i c hi
    obtain ⟨ok, uart, hrun, -⟩ := putcTurn_returns hl.ready c
    exact ⟨_, .turn hi hrun⟩
  · intro status c running
    obtain ⟨events, uart, hrun, -⟩ := k70UartInterrupt_returns hl.ready status c running
    exact ⟨_, .interrupt hrun⟩

end Dev
