import Manos.Dev.Uart
import Manos.Lib.Run
import Manos.Queues.Bounded
import Mathlib.Data.List.Basic

/-!
# The receive path of the uart

The runs of the interrupt handler together with any number of readers and writers.  A byte that
arrives is a signal, or it is kept for the readers; it is lost only if 128 bytes are waiting.
-/

namespace Dev

open Exec

/-- A turn of the loop of `k70UartGetc`, which is the last one if there is a character. -/
def getcTurn : Exec K70Uart (Option Byte) := K70Uart.onInQ dequeueFifoQ

/-! ### What arrives -/

/-- A byte that was received, whether a process was running, and how many bytes were waiting to be
read. -/
structure Arrival where
  char : Byte
  running : Bool
  waiting : ℕ
deriving DecidableEq

/-- What a byte is for a reader: two of them are signals, and one is the end of file. -/
def translate (c : Byte) : Option Byte :=
  if c = 0x03 ∨ c = 0x1a then none
  else if c = 0x04 then some 0
  else some c

namespace Arrival

/-- The byte that is kept for the readers. -/
def kept (a : Arrival) : Option Byte := if a.waiting < 128 then translate a.char else none

/-- The signal that is posted. -/
def signal (a : Arrival) : Option UartEvent :=
  if a.running = false then none
  else if a.char = 0x03 then some .abort
  else if a.char = 0x1a then some .stop
  else none

end Arrival

/-- The handler posts a signal. -/
def UartEvent.isSignal : UartEvent → Bool
  | weird _ => false
  | abort => true
  | stop => true

/-- The bytes in `inQ`. -/
def K70Uart.unread (uart : K70Uart) : List Byte := (uart.inQ.map FifoQ.contents).getD []

/-- The uart with its readers, and what has happened so far. -/
structure Reception (ι : Type) where
  uart : K70Uart
  /-- the readers in the loop of `k70UartGetc` -/
  reading : ι → Bool
  arrivals : List Arrival
  /-- what `k70UartGetc` returned -/
  taken : List Byte
  /-- the signals that were posted -/
  posted : List UartEvent

/-- What may happen next. -/
inductive ReceiveEvent (ι : Type) where
  /-- a reader calls `k70UartGetc` -/
  | call (i : ι)
  /-- a reader is in the critical region of `k70UartGetc` -/
  | turn (i : ι)
  /-- a writer is in the critical region of `k70UartPutc` -/
  | put (c : Byte)
  /-- the interrupt handler runs -/
  | interrupt (status : BitVec 32) (c : Byte) (running : Bool)

/-- The uart after `k70UartPower` and `k70UartEnable`. -/
def Reception.boot (ι : Type) (memIn memOut : ℕ → Byte) (c2 : BitVec 8) : Reception ι where
  uart :=
    ⟨newFifoQ 128 (some memIn), newFifoQ 128 (some memOut),
      c2 ||| (0x08 ||| 0x04 ||| uartC2Rie), []⟩
  reading := fun _ => false
  arrivals := []
  taken := []
  posted := []

section

variable {ι : Type} [DecidableEq ι] {s s' : Reception ι} {uart uart' : K70Uart}

/-- The steps. -/
inductive ReceiveStep (s : Reception ι) : ReceiveEvent ι → Reception ι → Prop where
  | call {i : ι} (h : s.reading i = false) :
      ReceiveStep s (.call i) { s with reading := Function.update s.reading i true }
  | turn {i : ι} {c : Option Byte} {uart : K70Uart} (h : s.reading i = true)
      (hrun : getcTurn s.uart = .done c uart) :
      ReceiveStep s (.turn i)
        ⟨uart, Function.update s.reading i c.isNone, s.arrivals, s.taken ++ c.toList, s.posted⟩
  | put {c : Byte} {ok : Bool} {uart : K70Uart} (hrun : putcTurn c s.uart = .done ok uart) :
      ReceiveStep s (.put c) { s with uart := uart }
  | interrupt {status : BitVec 32} {c : Byte} {running : Bool} {events : List UartEvent}
      {uart : K70Uart} (hrun : k70UartInterrupt status c running s.uart = .done events uart) :
      ReceiveStep s (.interrupt status c running)
        ⟨uart, s.reading,
          if status &&& uartS1Rdrf ≠ 0 then
            s.arrivals ++ [⟨c, running, s.uart.unread.length⟩]
          else s.arrivals,
          s.taken, s.posted ++ events.filter UartEvent.isSignal⟩

/-! ### What the functions do to the receiver -/

/-- What the receiver has of a uart. -/
def K70Uart.receiver (uart : K70Uart) : Option FifoQ × BitVec 8 :=
  (uart.inQ, uart.c2 &&& uartC2Rie)

/-- The receiver is enabled, and has a queue for 128 bytes. -/
structure K70Uart.Receives (uart : K70Uart) : Prop where
  inQ : ∃ q, uart.inQ = some q ∧ q.WellFormed ∧ q.size = 128
  rie : uart.c2 &&& uartC2Rie ≠ 0

theorem K70Uart.Receives.congr (h : uart.Receives) (hr : uart'.receiver = uart.receiver) :
  uart'.Receives ∧ uart'.unread = uart.unread
  := by
  obtain ⟨hin, hc2⟩ := Prod.ext_iff.mp hr
  dsimp only [K70Uart.receiver] at hin hc2
  refine ⟨⟨?_, ?_⟩, ?_⟩
  · rw [hin]
    exact h.inQ
  · rw [hc2]
    exact h.rie
  · rw [K70Uart.unread, K70Uart.unread, hin]

theorem unread_eq {q : FifoQ} (h : uart.inQ = some q) :
  uart.unread = q.contents
  := by
  rw [K70Uart.unread, h]
  rfl

/-- Setting the interrupt of the transmitter leaves that of the receiver. -/
theorem rie_tie (c2 : BitVec 8) :
  (c2 ||| uartC2Tie) &&& uartC2Rie = c2 &&& uartC2Rie ∧
    (c2 &&& ~~~ uartC2Tie) &&& uartC2Rie = c2 &&& uartC2Rie
  := by
  revert c2
  decide +kernel

theorem onOutQ_receiver {α : Type} (x : Exec (Option FifoQ) α) :
  Preserves K70Uart.receiver (K70Uart.onOutQ x)
  := by
  intro uart
  rw [K70Uart.onOutQ, onPart]
  split
  · rfl
  · rfl

/-- Writers leave the receiver alone. -/
theorem putcTurn_receiver (c : Byte) :
  Preserves K70Uart.receiver (putcTurn c)
  := by
  apply (onOutQ_receiver _).bind
  intro ok
  cases ok with
  | false => exact .pure _ _
  | true =>
      refine .bind (.modify fun uart => ?_) fun _ => .pure _ _
      rw [K70Uart.receiver, (rie_tie uart.c2).1]
      rfl

/-- So does the transmitter. -/
theorem transmit_receiver (status : BitVec 32) :
  Preserves K70Uart.receiver (transmit status)
  := by
  refine .bind (.get _) fun uart => .when ?_
  apply (onOutQ_receiver _).bind
  intro c
  refine .bind (.modify fun _ => rfl) fun _ => ?_
  refine .bind (.get _) fun uart => ?_
  cases uart.outQ with
  | none => exact .fault _ _
  | some q =>
      refine .when (.modify fun uart => ?_)
      rw [K70Uart.receiver, (rie_tie uart.c2).2]
      rfl

/-- A reader takes the first byte, if there is one. -/
theorem getcTurn_returns (h : uart.Receives) :
  Returns uart getcTurn fun c uart' => uart'.Receives ∧ uart.unread = c.toList ++ uart'.unread
  := by
  obtain ⟨q, hq, hw, hsize⟩ := h.inQ
  cases he : q.isEmpty with
  | true =>
      have hget : getcTurn uart = .done none uart := by
        rw [getcTurn, K70Uart.onInQ, onPart, hq, dequeueFifoQ_empty he]
        simp only [← hq]
      exact ⟨none, uart, hget, h, rfl⟩
  | false =>
      have hget : getcTurn uart =
          .done (some (q.buf q.readOffset)) { uart with inQ := some q.take } := by
        rw [getcTurn, K70Uart.onInQ, onPart, hq, dequeueFifoQ_take hw he]
      refine ⟨_, _, hget, ⟨⟨q.take, rfl, FifoQ.take_wellFormed hw, hsize⟩, h.rie⟩, ?_⟩
      rw [unread_eq hq, unread_eq (q := q.take) rfl, FifoQ.contents_take hw he]
      rfl

/-- Readers leave the transmitter alone. -/
theorem getcTurn_ready (hr : uart.Ready) (h : uart'.Receives) {c : Option Byte}
    (hrun : getcTurn uart = .done c uart') :
  uart'.Ready
  := by
  have hsame : uart'.outQ = uart.outQ ∧ uart'.c2 = uart.c2 := by
    rw [getcTurn, K70Uart.onInQ, onPart] at hrun
    split at hrun
    · cases hrun
      exact ⟨rfl, rfl⟩
    · cases hrun
  obtain ⟨q, hq, hw, -⟩ := h.inQ
  refine ⟨⟨q, hq, hw⟩, ?_⟩
  rw [hsame.1, K70Uart.tie, hsame.2]
  exact hr.outQ

/-- A byte is put behind the others, unless there are 128 of them. -/
theorem enqueue_unread (h : uart.Receives) (c : Byte) :
  Returns uart (K70Uart.onInQ (enqueueFifoQ c)) fun _ uart' => uart'.Receives ∧
    uart'.unread = if uart.unread.length < 128 then uart.unread ++ [c] else uart.unread
  := by
  obtain ⟨q, hq, hw, hsize⟩ := h.inQ
  have hle := FifoQ.count_le hw
  rw [← FifoQ.length_contents, hsize] at hle
  have hfull_iff := FifoQ.isFullFifoQ_iff hw
  rw [hsize] at hfull_iff
  rw [unread_eq hq]
  cases hfull : isFullFifoQ (some q) with
  | false =>
      have hput : K70Uart.onInQ (enqueueFifoQ c) uart =
          .done true { uart with inQ := some (q.put c) } := by
        rw [K70Uart.onInQ, onPart, hq, enqueueFifoQ_put hw hfull]
      have hlt : q.contents.length < 128 := by
        apply Nat.lt_of_le_of_ne hle
        intro heq
        rw [hfull_iff.mpr heq] at hfull
        contradiction
      refine ⟨_, _, hput, ⟨⟨q.put c, rfl, FifoQ.put_wellFormed hw c, hsize⟩, h.rie⟩, ?_⟩
      rw [if_pos hlt, unread_eq (q := q.put c) rfl, FifoQ.contents_put hw hfull]
  | true =>
      have hput : K70Uart.onInQ (enqueueFifoQ c) uart = .done false uart := by
        rw [K70Uart.onInQ, onPart, hq, enqueueFifoQ_full hfull]
        simp only [← hq]
      refine ⟨_, _, hput, h, ?_⟩
      rw [if_neg (Nat.not_lt_of_le (Nat.le_of_eq (hfull_iff.mp hfull).symm)), unread_eq hq]

/-- A byte that arrives is a signal, or it is kept if there is room for it. -/
theorem received_returns (h : uart.Receives) (c : Byte) (running : Bool) :
  Returns uart (received c running) fun events uart' => uart'.Receives ∧
    uart'.unread = uart.unread ++ (Arrival.kept ⟨c, running, uart.unread.length⟩).toList ∧
    events = (Arrival.signal ⟨c, running, uart.unread.length⟩).toList
  := by
  have hkept : (Arrival.kept ⟨c, running, uart.unread.length⟩) =
      if uart.unread.length < 128 then translate c else none := rfl
  have hput : ∀ b, translate c = some b → Arrival.signal ⟨c, running, uart.unread.length⟩ = none →
      Returns uart (K70Uart.onInQ (enqueueFifoQ b) >>= fun _ => pure ([] : List UartEvent))
        fun events uart' => uart'.Receives ∧
          uart'.unread = uart.unread ++ (Arrival.kept ⟨c, running, uart.unread.length⟩).toList ∧
          events = (Arrival.signal ⟨c, running, uart.unread.length⟩).toList := by
    intro b hb hsignal
    refine (enqueue_unread h b).bind ?_
    rintro - uart' ⟨hr, hunread⟩
    refine .pure ⟨hr, ?_, by rw [hsignal]; rfl⟩
    rw [hunread, hkept, hb]
    split
    · rfl
    · exact (List.append_nil _).symm
  have hnone : translate c = none → ∀ events,
      events = (Arrival.signal ⟨c, running, uart.unread.length⟩).toList →
      Returns uart (pure events : Exec K70Uart (List UartEvent)) fun events uart' =>
        uart'.Receives ∧
          uart'.unread = uart.unread ++ (Arrival.kept ⟨c, running, uart.unread.length⟩).toList ∧
          events = (Arrival.signal ⟨c, running, uart.unread.length⟩).toList := by
    intro hc events hevents
    refine .pure ⟨h, ?_, hevents⟩
    rw [hkept, hc, ite_self]
    exact (List.append_nil _).symm
  unfold received
  by_cases habort : c = 0x03
  · subst habort
    rw [if_pos rfl]
    cases running with
    | false => exact hnone rfl [] rfl
    | true => exact hnone rfl [.abort] rfl
  rw [if_neg habort]
  by_cases hend : c = 0x04
  · subst hend
    rw [if_pos rfl]
    apply hput 0 rfl
    cases running with
    | false => rfl
    | true => rfl
  rw [if_neg hend]
  by_cases hstop : c = 0x1a
  · subst hstop
    rw [if_pos rfl]
    cases running with
    | false => exact hnone rfl [] rfl
    | true => exact hnone rfl [.stop] rfl
  rw [if_neg hstop]
  have htranslate : translate c = some c := by
    rw [translate, if_neg (not_or.mpr ⟨habort, hstop⟩), if_neg hend]
  apply hput c htranslate
  rw [Arrival.signal, if_neg habort, if_neg hstop, ite_self]

/-- No message is a signal. -/
theorem filter_weird (status : BitVec 32) :
  (weird status).filter UartEvent.isSignal = []
  := by
  unfold weird
  split
  · rfl
  · rfl

theorem filter_signal (a : Arrival) :
  a.signal.toList.filter UartEvent.isSignal = a.signal.toList
  := by
  unfold Arrival.signal
  repeat' split
  all_goals rfl

/-- What the interrupt handler does to the receiver. -/
theorem interrupt_returns (h : uart.Receives) (hr : uart.Ready) (status : BitVec 32) (c : Byte)
    (running : Bool) :
  Returns uart (k70UartInterrupt status c running) fun events uart' => uart'.Receives ∧
    uart'.unread = uart.unread ++ (if status &&& uartS1Rdrf ≠ 0 then
      (Arrival.kept ⟨c, running, uart.unread.length⟩).toList else []) ∧
    events.filter UartEvent.isSignal = if status &&& uartS1Rdrf ≠ 0 then
      (Arrival.signal ⟨c, running, uart.unread.length⟩).toList else []
  := by
  obtain ⟨_, uart₁, htransmit, -⟩ := transmit_returns hr status
  obtain ⟨hreceives, hunread⟩ := h.congr ((transmit_receiver status).done htransmit)
  rw [← hunread]
  refine .step htransmit (Returns.bind (P := fun events uart' => uart'.Receives ∧
    uart'.unread = uart₁.unread ++ (if status &&& uartS1Rdrf ≠ 0 then
      (Arrival.kept ⟨c, running, uart₁.unread.length⟩).toList else []) ∧
    events = if status &&& uartS1Rdrf ≠ 0 then
      (Arrival.signal ⟨c, running, uart₁.unread.length⟩).toList else []) ?_ ?_)
  · refine .get ?_
    by_cases hrdrf : status &&& uartS1Rdrf ≠ 0
    · rw [if_pos ⟨hreceives.rie, hrdrf⟩, if_pos hrdrf, if_pos hrdrf]
      exact received_returns hreceives c running
    · rw [if_neg fun hboth => hrdrf hboth.2, if_neg hrdrf, if_neg hrdrf]
      exact .pure ⟨hreceives, (List.append_nil _).symm, rfl⟩
  · rintro events uart₂ ⟨hr₂, hunread₂, rfl⟩
    refine .pure ⟨hr₂, hunread₂, ?_⟩
    rw [List.filter_append, filter_weird, List.nil_append]
    split
    · exact filter_signal _
    · rfl

/-! ### Runs -/

theorem filterMap_one {β : Type} (f : Arrival → Option β) (a : Arrival) :
  [a].filterMap f = (f a).toList
  := by
  rw [List.filterMap_cons]
  cases f a with
  | none => rfl
  | some b => rfl

/-- What holds between two steps. -/
structure Reception.Inv (s : Reception ι) : Prop where
  ready : s.uart.Ready
  receives : s.uart.Receives
  kept : s.arrivals.filterMap Arrival.kept = s.taken ++ s.uart.unread
  posted : s.posted = s.arrivals.filterMap Arrival.signal

/-- Every step keeps the invariant. -/
theorem ReceiveStep.inv {e : ReceiveEvent ι} (h : ReceiveStep s e s') (hs : s.Inv) :
  s'.Inv
  := by
  cases h with
  | call hi => exact ⟨hs.ready, hs.receives, hs.kept, hs.posted⟩
  | @turn i c uart hi hrun =>
      obtain ⟨hreceives, hunread⟩ := (getcTurn_returns hs.receives).done hrun
      refine ⟨getcTurn_ready hs.ready hreceives hrun, hreceives, ?_, hs.posted⟩
      rw [hs.kept, hunread, List.append_assoc]
  | @put c ok uart hrun =>
      obtain ⟨hready, -⟩ := (putcTurn_returns hs.ready c).done hrun
      obtain ⟨hreceives, hunread⟩ := hs.receives.congr ((putcTurn_receiver c).done hrun)
      refine ⟨hready, hreceives, ?_, hs.posted⟩
      rw [hunread]
      exact hs.kept
  | @interrupt status c running events uart hrun =>
      obtain ⟨hready, -⟩ := (k70UartInterrupt_returns hs.ready status c running).done hrun
      obtain ⟨hreceives, hunread, hevents⟩ :=
        (interrupt_returns hs.receives hs.ready status c running).done hrun
      refine ⟨hready, hreceives, ?_, ?_⟩
      · rw [hunread, ← List.append_assoc, ← hs.kept]
        split
        · rw [List.filterMap_append, filterMap_one]
        · exact (List.append_nil _).symm
      · rw [hevents, hs.posted]
        split
        · rw [List.filterMap_append, filterMap_one]
        · exact List.append_nil _

theorem rie_enabled (c2 : BitVec 8) :
  (c2 ||| (0x08 ||| 0x04 ||| uartC2Rie)) &&& uartC2Rie ≠ 0
  := by
  revert c2
  decide +kernel

omit [DecidableEq ι] in
theorem Reception.boot_inv (memIn memOut : ℕ → Byte) (c2 : BitVec 8) :
  (Reception.boot ι memIn memOut c2).Inv
  := by
  obtain ⟨_, uart₁, hpower, hready₁, -⟩ :=
    k70UartPower_returns ⟨none, none, c2, []⟩ memIn memOut
  cases hpower
  obtain ⟨_, uart₂, henable, hready, -⟩ := k70UartEnable_returns hready₁
  cases henable
  have hlt : 0 < 128 := by decide
  have hwell : (clearFifoQ ⟨false, 0, 0, 128, memIn⟩).WellFormed := clearFifoQ_wellFormed hlt
  exact ⟨hready, ⟨⟨_, rfl, hwell, rfl⟩, rie_enabled c2⟩, rfl, rfl⟩

/-- In every state of a run the invariant holds. -/
theorem reception_inv {memIn memOut : ℕ → Byte} {c2 : BitVec 8}
    (h : Run.ReachAny ReceiveStep (Reception.boot ι memIn memOut c2) s) :
  s.Inv
  := by
  refine h.invariant (Reception.boot_inv memIn memOut c2) ?_
  intro t e t' ht _ hs
  exact hs.inv ht

/--
However readers, writers and interrupts take turns, the bytes that the readers got and those that
wait for them are the bytes that arrived, in their order, without the signals and without those for
which there was no room because 128 bytes were waiting; and the signals that arrived while a
process was running are those that were posted.
-/
theorem receive_keeps_bytes {memIn memOut : ℕ → Byte} {c2 : BitVec 8}
    (h : Run.ReachAny ReceiveStep (Reception.boot ι memIn memOut c2) s) :
  ∃ q, s.uart.inQ = some q ∧
    s.arrivals.filterMap Arrival.kept = s.taken ++ q.contents ∧
    s.posted = s.arrivals.filterMap Arrival.signal ∧
    ((∀ a ∈ s.arrivals, a.waiting < 128) →
      (s.arrivals.map Arrival.char).filterMap translate = s.taken ++ q.contents)
  := by
  have hs := reception_inv h
  obtain ⟨q, hq, -, -⟩ := hs.receives.inQ
  have hkept := hs.kept
  rw [unread_eq hq] at hkept
  refine ⟨q, hq, hkept, hs.posted, ?_⟩
  intro hroom
  rw [← hkept, List.filterMap_map]
  apply List.filterMap_congr
  intro a ha
  exact (if_pos (hroom a ha)).symm

end

/-- Of three bytes that arrive one is a signal, and a reader gets the first one. -/
theorem receive_keeps_bytes_three :
  ∃ s : Reception Unit, s.taken = [0x61] ∧ s.posted = [.abort] ∧ ∃ q, s.uart.inQ = some q ∧
    s.arrivals.filterMap Arrival.kept = s.taken ++ q.contents
  := by
  have h₀ : Run.ReachAny ReceiveStep (Reception.boot Unit (fun _ => 0) (fun _ => 0) 0) _ := .refl _
  have h₁ := h₀.snoc (e := .interrupt 0x20 0x61 true) (.interrupt rfl)
  have h₂ := h₁.snoc (.call (i := ()) rfl)
  have h₃ := h₂.snoc (e := .interrupt 0x20 0x03 true) (.interrupt rfl)
  have h₄ := h₃.snoc (.turn (i := ()) rfl rfl)
  have h₅ := h₄.snoc (e := .interrupt 0x20 0x04 true) (.interrupt rfl)
  obtain ⟨q, hq, hkept, -⟩ := receive_keeps_bytes h₅
  exact ⟨_, rfl, rfl, q, hq, hkept⟩

end Dev
