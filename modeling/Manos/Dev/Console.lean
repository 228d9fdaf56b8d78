import Manos.Dev.Transmit

/-!
# Writers of the uart

The loop of `writeUart`, which puts the characters of a text one after another and, if the uart is
a console, a carriage return before each line feed: any number of processes write to the uart.
However they and the interrupt handler take turns, the text of each of them comes out whole and in
order.
-/

namespace Dev

open Exec

/-! ### The loop -/

/-- A writer in its loop. -/
structure Writer where
  /-- the characters that are left -/
  rest : List Byte
  /-- `uart->console`: a carriage return is put before a line feed -/
  console : Bool
  /-- whether it was put before the first character that is left -/
  returned : Bool
deriving DecidableEq

/-- The next call of `putc` in the loop: its argument, and the writer after it. -/
def Writer.next (w : Writer) : Option (Byte × Writer) :=
  match w.rest with
  | [] => none
  | c :: rest =>
      if w.console ∧ c = 0x0a ∧ w.returned = false then some (0x0d, ⟨c :: rest, w.console, true⟩)
      else some (c, ⟨rest, w.console, false⟩)

/-- A text as it comes out. -/
def expand (console : Bool) (s : List Byte) : List Byte :=
  s.flatMap fun c => if console ∧ c = 0x0a then [0x0d, c] else [c]

/-- The bytes that a writer has still to put. -/
def Writer.due (w : Writer) : List Byte :=
  if w.returned then w.rest.take 1 ++ expand w.console (w.rest.drop 1) else expand w.console w.rest

theorem expand_cons (console : Bool) (c : Byte) (s : List Byte) :
  expand console (c :: s) = (if console ∧ c = 0x0a then [0x0d, c] else [c]) ++ expand console s
  := List.flatMap_cons

/-- A call puts the first byte that is due. -/
theorem Writer.due_next {w w' : Writer} {c : Byte} (h : w.next = some (c, w')) :
  w.due = c :: w'.due
  := by
  obtain ⟨rest, console, returned⟩ := w
  cases rest with
  | nil => cases h
  | cons b rest =>
      rw [Writer.next] at h
      dsimp only at h
      cases returned with
      | true =>
          rw [if_neg (by simp), Option.some.injEq] at h
          cases h
          rfl
      | false =>
          rw [Writer.due, if_neg Bool.false_ne_true, expand_cons]
          by_cases hlf : console = true ∧ b = 0x0a
          · rw [if_pos ⟨hlf.1, hlf.2, rfl⟩, Option.some.injEq] at h
            cases h
            rw [if_pos hlf]
            rfl
          · rw [if_neg fun hall => hlf ⟨hall.1, hall.2.1⟩, Option.some.injEq] at h
            cases h
            rw [if_neg hlf]
            rfl

theorem Writer.due_of_next {w : Writer} (h : w.next = none) (hr : w.returned = false) :
  w.due = []
  := by
  obtain ⟨rest, console, returned⟩ := w
  obtain rfl : returned = false := hr
  cases rest with
  | nil => rfl
  | cons b rest =>
      rw [Writer.next] at h
      dsimp only at h
      split at h
      · cases h
      · cases h

/-! ### Runs -/

/-- The uart with its writers. -/
structure Consoles (ι : Type) where
  line : Line ι
  writer : ι → Writer
  /-- the texts of a writer so far, as they are to come out -/
  owed : ι → List Byte
  /-- the bytes that were put into the queue, with their writers -/
  log : List (ι × Byte)

/-- What may happen next. -/
inductive ConsoleEvent (ι : Type) where
  /-- a writer starts with a text -/
  | write (i : ι) (s : List Byte)
  /-- it calls `putc` -/
  | call (i : ι)
  /-- it is in the critical region of `k70UartPutc` -/
  | turn (i : ι)
  /-- the interrupt handler runs -/
  | interrupt (status : BitVec 32) (c : Byte) (running : Bool)

/-- Nothing was written yet. -/
def Consoles.boot (ι : Type) (memIn memOut : ℕ → Byte) (c2 : BitVec 8) : Consoles ι where
  line := .boot ι memIn memOut c2
  writer := fun _ => ⟨[], false, false⟩
  owed := fun _ => []
  log := []

section

variable {ι : Type} [DecidableEq ι] {console : Bool} {s s' : Consoles ι} {i : ι}

/-- The bytes of one writer. -/
def ownBytes (i : ι) (log : List (ι × Byte)) : List Byte :=
  (log.filter fun e => e.1 = i).map Prod.snd

variable (console) in
/-- The steps. -/
inductive ConsoleStep (s : Consoles ι) : ConsoleEvent ι → Consoles ι → Prop where
  | write {i : ι} {t : List Byte} (hw : (s.writer i).next = none)
      (hp : s.line.putting i = none) :
      ConsoleStep s (.write i t)
        ⟨s.line, Function.update s.writer i ⟨t, console, false⟩,
          Function.update s.owed i (s.owed i ++ expand console t), s.log⟩
  | call {i : ι} {c : Byte} {w : Writer} {l : Line ι} (hw : (s.writer i).next = some (c, w))
      (hl : LineStep s.line (.call i c) l) :
      ConsoleStep s (.call i) ⟨l, Function.update s.writer i w, s.owed, s.log⟩
  | turn {i : ι} {c : Byte} {ok : Bool} {uart : K70Uart} (hp : s.line.putting i = some c)
      (hrun : putcTurn c s.line.uart = .done ok uart) :
      ConsoleStep s (.turn i)
        ⟨s.line.afterTurn i c ok uart, s.writer, s.owed,
          if ok then s.log ++ [(i, c)] else s.log⟩
  | interrupt {status : BitVec 32} {c : Byte} {running : Bool} {l : Line ι}
      (hl : LineStep s.line (.interrupt status c running) l) :
      ConsoleStep s (.interrupt status c running) ⟨l, s.writer, s.owed, s.log⟩

/-- What holds between two steps. -/
structure Consoles.Inv (s : Consoles ι) : Prop where
  line : s.line.Inv
  log : s.log.map Prod.snd = s.line.accepted
  returned : ∀ i, (s.writer i).next = none → (s.writer i).returned = false
  owed : ∀ i, s.owed i = ownBytes i s.log ++ (s.line.putting i).toList ++ (s.writer i).due

theorem ownBytes_concat (i j : ι) (log : List (ι × Byte)) (c : Byte) :
  ownBytes i (log ++ [(j, c)]) = ownBytes i log ++ if j = i then [c] else []
  := by
  rw [ownBytes, List.filter_append, List.map_append, ← ownBytes]
  congr 1
  by_cases hj : j = i
  · simp [hj]
  · simp [hj]

/-- After a call the writer has a character left if it has put a carriage return. -/
theorem Writer.returned_next {w w' : Writer} {c : Byte} (h : w.next = some (c, w'))
    (hw : w'.next = none) :
  w'.returned = false
  := by
  obtain ⟨rest, console, returned⟩ := w
  cases rest with
  | nil => cases h
  | cons b rest =>
      rw [Writer.next] at h
      dsimp only at h
      split at h
      · cases h
        rw [Writer.next] at hw
        dsimp only at hw
        split at hw
        · cases hw
        · cases hw
      · cases h
        rfl

/-- A writer that starts with a text owes it. -/
theorem Consoles.Inv.write (h : s.Inv) {t : List Byte}
    (hw : (s.writer i).next = none) :
  Consoles.Inv ⟨s.line, Function.update s.writer i ⟨t, console, false⟩,
    Function.update s.owed i (s.owed i ++ expand console t), s.log⟩
  := by
  have hdue := Writer.due_of_next hw (h.returned i hw)
  refine ⟨h.line, h.log, fun j hj => ?_, fun j => ?_⟩
  · dsimp only at hj ⊢
    by_cases hji : j = i
    · rw [hji, Function.update_self]
    · rw [Function.update_of_ne hji] at hj ⊢
      exact h.returned j hj
  · dsimp only
    by_cases hji : j = i
    · subst hji
      rw [Function.update_self, Function.update_self, h.owed j, hdue, List.append_nil]
      rfl
    · rw [Function.update_of_ne hji, Function.update_of_ne hji, h.owed j]

/-- The byte that a writer puts is the first one that is due. -/
theorem Consoles.Inv.call (h : s.Inv) {c : Byte} {w : Writer} {l : Line ι}
    (hw : (s.writer i).next = some (c, w)) (hl : LineStep s.line (.call i c) l) :
  Consoles.Inv ⟨l, Function.update s.writer i w, s.owed, s.log⟩
  := by
  have hinv := hl.inv h.line
  cases hl with
  | call hp =>
      refine ⟨hinv, h.log, fun j hj => ?_, fun j => ?_⟩
      · dsimp only at hj ⊢
        by_cases hji : j = i
        · subst hji
          rw [Function.update_self] at hj ⊢
          exact Writer.returned_next hw hj
        · rw [Function.update_of_ne hji] at hj ⊢
          exact h.returned j hj
      · dsimp only
        by_cases hji : j = i
        · subst hji
          rw [Function.update_self, Function.update_self, h.owed j, hp, Writer.due_next hw]
          simp
        · rw [Function.update_of_ne hji, Function.update_of_ne hji, h.owed j]

/-- A byte that is put goes from the writer to the log. -/
theorem Consoles.Inv.turn (h : s.Inv) {c : Byte} {ok : Bool} {uart : K70Uart}
    (hp : s.line.putting i = some c) (hrun : putcTurn c s.line.uart = .done ok uart) :
  Consoles.Inv ⟨s.line.afterTurn i c ok uart, s.writer, s.owed,
    if ok then s.log ++ [(i, c)] else s.log⟩
  := by
  refine ⟨(LineStep.turn hp hrun).inv h.line, ?_, h.returned, fun j => ?_⟩
  · cases ok with
    | false => exact h.log
    | true =>
        dsimp only [Line.afterTurn]
        rw [if_pos rfl, if_pos rfl, List.map_append, h.log]
        rfl
  · cases ok with
    | false => exact h.owed j
    | true =>
        dsimp only [Line.afterTurn]
        rw [if_pos rfl, if_pos rfl, ownBytes_concat, h.owed j]
        by_cases hji : j = i
        · subst hji
          rw [Function.update_self, if_pos rfl, hp]
          simp
        · rw [Function.update_of_ne hji, if_neg (Ne.symm hji), List.append_nil]

/-- Every step keeps the invariant. -/
theorem ConsoleStep.inv {e : ConsoleEvent ι} (h : ConsoleStep console s e s') (hs : s.Inv) :
  s'.Inv
  := by
  cases h with
  | write hw _ => exact hs.write hw
  | call hw hl => exact hs.call hw hl
  | turn hp hrun => exact hs.turn hp hrun
  | interrupt hl =>
      have hinv := hl.inv hs.line
      cases hl with
      | interrupt hrun => exact ⟨hinv, hs.log, hs.returned, hs.owed⟩

theorem Consoles.boot_inv (memIn memOut : ℕ → Byte) (c2 : BitVec 8) :
  (Consoles.boot ι memIn memOut c2).Inv
  := ⟨Line.boot_inv memIn memOut c2, rfl, fun _ _ => rfl, fun _ => rfl⟩

/-- In every state of a run the invariant holds. -/
theorem consoles_inv {memIn memOut : ℕ → Byte} {c2 : BitVec 8}
    (h : Run.ReachAny (ConsoleStep console) (Consoles.boot ι memIn memOut c2) s) :
  s.Inv
  := by
  refine h.invariant (Consoles.boot_inv memIn memOut c2) ?_
  intro s e s' hs _ hstep
  exact hstep.inv hs

/--
However writers and interrupts take turns, what was stored to `UART_D` and what is in `outQ` are an
interleaving of the bytes of the writers, and the bytes of a writer that has returned are its texts,
with a carriage return before each line feed if the uart is a console.
-/
theorem console_keeps_texts {memIn memOut : ℕ → Byte} {c2 : BitVec 8}
    (h : Run.ReachAny (ConsoleStep console) (Consoles.boot ι memIn memOut c2) s) :
  (∃ q, s.line.uart.outQ = some q ∧
    s.log.map Prod.snd = s.line.uart.sent ++ q.contents) ∧
  (∀ i, ownBytes i s.log <+: s.owed i) ∧
  ∀ i, (s.writer i).next = none → s.line.putting i = none → ownBytes i s.log = s.owed i
  := by
  have hs := consoles_inv h
  refine ⟨?_, fun i => ?_, fun i hw hp => ?_⟩
  · obtain ⟨q, hq, -, -⟩ := hs.line.ready.outQ
    refine ⟨q, hq, ?_⟩
    rw [hs.log, hs.line.accepted, waiting_eq hq]
  · rw [hs.owed i, List.append_assoc]
    apply List.prefix_append
  · rw [hs.owed i, hp, Writer.due_of_next hw (hs.returned i hw)]
    simp

end

/-- A byte of one writer comes between the two of the line feed of another. -/
theorem console_keeps_texts_line_feed :
  ∃ s : Consoles Bool, s.log = [(true, 0x0d), (false, 0x61), (true, 0x0a)] ∧
    s.line.uart.sent = [0x0d] ∧
    (∃ q, s.line.uart.outQ = some q ∧ s.log.map Prod.snd = s.line.uart.sent ++ q.contents) ∧
    (∀ i, ownBytes i s.log <+: s.owed i) ∧
    ∀ i, (s.writer i).next = none → s.line.putting i = none → ownBytes i s.log = s.owed i
  := by
  have h₀ : Run.ReachAny (ConsoleStep true) (Consoles.boot Bool (fun _ => 0) (fun _ => 0) 0) _ := .refl _
  have h₁ := h₀.snoc (e := .write true [0x0a]) (.write rfl rfl)
  have h₂ := h₁.snoc (.call (i := true) rfl (.call rfl))
  have h₃ := h₂.snoc (.turn (i := true) rfl rfl)
  have h₄ := h₃.snoc (e := .write false [0x61]) (.write rfl rfl)
  have h₅ := h₄.snoc (.call (i := false) rfl (.call rfl))
  have h₆ := h₅.snoc (.turn (i := false) rfl rfl)
  have h₇ := h₆.snoc (e := .interrupt 0x80 0 true) (.interrupt (.interrupt rfl))
  have h₈ := h₇.snoc (.call (i := true) rfl (.call rfl))
  have h₉ := h₈.snoc (.turn (i := true) rfl rfl)
  exact ⟨_, rfl, rfl, console_keeps_texts h₉⟩

end Dev
