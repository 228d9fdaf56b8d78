import Manos.Lib.Editing
import Manos.Lib.Exec
import Manos.Torgo.CharBuf

/-!
# Lines from the terminal

`readPromptShell`, which reads a line that is edited while it is typed.  The terminal gives a
sequence of bytes and then the end of file; what is written to it is kept, the echo of the bytes
among it.
-/

namespace Torgo

open Exec Editing

/-- `Shell`, as far as lines are read by it. -/
structure Shell where
  /-- the bytes that `kread` still gives from the terminal before it returns 0 -/
  input : List Byte
  /-- the bytes written to the terminal -/
  tty : List Byte
  /-- `readBuf` -/
  readBuf : CharBuf

/-! ### The functions -/

/-- `'\n'` -/
def lineFeed : Byte := 10

/-- `'\r'` -/
def carriageReturn : Byte := 13

/-- The byte of the key that deletes -/
def delete : Byte := 127

/-- `fputstr` to the terminal -/
def fputstr (str : List Byte) : Exec Shell Unit := modify fun s => { s with tty := s.tty ++ str }

/-- `fputchar` to the terminal -/
def fputchar (c : Byte) : Exec Shell Unit := fputstr [c]

/-- `kread` of one byte from the terminal, and 0 where it returns 0 -/
def readChar : Exec Shell Byte := do
  let s ← get
  match s.input with
  | [] => return 0
  | c :: input => do
      modify fun s => { s with input := input }
      return c

/-- The branch of `readPromptShell` in which a byte is kept -/
def keepChar (c : Byte) : Exec Shell Unit := do
  fputchar c
  modify fun s => { s with readBuf := appendCharBuf s.readBuf c }

/-- The branch of `readPromptShell` in which the last byte is dropped -/
def dropChar : Exec Shell Unit := do
  let s ← get
  let dropped := dropLastCharBuf s.readBuf
  modify fun s => { s with readBuf := dropped.2 }
  if dropped.1 ≠ 0 then fputstr [8, 32, 8] else fputchar 7

/-- The body of the loop of `readPromptShell`, which returns `keepReading` -/
def readTurn : Exec Shell Bool := do
  let c ← readChar
  if c = 0 then return false
  else if c = delete then do
    dropChar
    return true
  else if c = carriageReturn ∨ c = lineFeed then do
    when (c = carriageReturn) (fputchar c)
    keepChar lineFeed
    return false
  else do
    keepChar c
    return true

/-- The loop of `readPromptShell`, with at most so many turns -/
def readLoop (readMax : ℤ) : ℕ → Exec Shell Unit
  | 0 => fault .endless
  | k + 1 =>
      if readMax = -1 ∨ 0 < readMax then do
        let keepReading ← readTurn
        if keepReading = true then readLoop readMax k else return ()
      else return ()

/-- `readPromptShell` -/
def readPromptShell (k : ℕ) (promptStr : List Byte) (readMax : ℤ) : Exec Shell CharBuf := do
  modify fun s => { s with readBuf := clearCharBuf s.readBuf }
  fputstr promptStr
  match promptStr.getLast? with
  | none => fault (.wild "promptStr")
  | some c => do
      when (c ≠ 32) (fputchar 32)
      readLoop readMax k
      let s ← get
      return s.readBuf

/-! ### Lines -/

/-- What a byte does to the line. -/
def key (c : Byte) : Option Byte := if c = delete then none else some c

/-- The line that bytes make of one: until a byte ends it, the end of file or the limit is met. -/
def editLine (limit : Option ℕ) (line : List Byte) : List Byte → List Byte
  | [] => line
  | c :: input =>
      if limit = some line.length then line
      else if c = 0 then line
      else if c = carriageReturn ∨ c = lineFeed then line ++ [lineFeed]
      else editLine limit (press line (key c)) input

/-- The bytes of the first line. -/
def typed (input : List Byte) : List Byte :=
  input.takeWhile fun c => c ≠ 0 ∧ c ≠ carriageReturn ∧ c ≠ lineFeed

/-- What ends the first line: a newline, or nothing at the end of file. -/
def ending (input : List Byte) : List Byte :=
  match input.drop (typed input).length with
  | [] => []
  | c :: _ => if c = 0 then [] else [lineFeed]

/-- The keys of the first line. -/
def keys (input : List Byte) : List (Option Byte) := (typed input).map key

section

variable {line input : List Byte} {c : Byte} {n : ℕ}

/-- The bytes that end a line. -/
def EndsLine (c : Byte) : Prop := c = 0 ∨ c = carriageReturn ∨ c = lineFeed

theorem typed_cons (h : ¬ EndsLine c) :
  typed (c :: input) = c :: typed input
  := by
  rw [EndsLine, not_or, not_or] at h
  exact List.takeWhile_cons_of_pos (decide_eq_true h)

theorem typed_of_end (h : EndsLine c) :
  typed (c :: input) = []
  := by
  apply List.takeWhile_cons_of_neg
  rw [decide_eq_true_iff]
  rw [EndsLine] at h
  tauto

theorem keys_cons (h : ¬ EndsLine c) :
  keys (c :: input) = key c :: keys input
  := by
  rw [keys, typed_cons h, List.map_cons, ← keys]

theorem keys_of_end (h : EndsLine c) :
  keys (c :: input) = []
  := by
  rw [keys, typed_of_end h, List.map_nil]

theorem ending_cons (h : ¬ EndsLine c) :
  ending (c :: input) = ending input
  := by
  rw [ending, typed_cons h]
  rfl

theorem ending_of_end (h : EndsLine c) :
  ending (c :: input) = if c = 0 then [] else [lineFeed]
  := by
  rw [ending, typed_of_end h]
  rfl

theorem editLine_cons {limit : Option ℕ} (hlimit : limit ≠ some line.length) (h : ¬ EndsLine c) :
  editLine limit line (c :: input) = editLine limit (press line (key c)) input
  := by
  rw [EndsLine, not_or] at h
  rw [editLine, if_neg hlimit, if_neg h.1, if_neg h.2]

theorem editLine_of_end {limit : Option ℕ} (hlimit : limit ≠ some line.length) (h : EndsLine c) :
  editLine limit line (c :: input) = line ++ ending (c :: input)
  := by
  rw [editLine, if_neg hlimit, ending_of_end h]
  by_cases hzero : c = 0
  · rw [if_pos hzero, if_pos hzero, List.append_nil]
  · rw [if_neg hzero, if_neg hzero, if_pos (h.resolve_left hzero)]

/-- Without a limit a line is what its keys type and what ends it. -/
theorem editLine_none (line input : List Byte) :
  editLine none line input = edit line (keys input) ++ ending input
  := by
  induction input generalizing line with
  | nil => exact (List.append_nil _).symm
  | cons c input ih =>
      by_cases hend : EndsLine c
      · rw [editLine_of_end (Option.some_ne_none _).symm hend, keys_of_end hend, edit_nil]
      · rw [editLine_cons (Option.some_ne_none _).symm hend, ih, keys_cons hend, edit_cons,
          ending_cons hend]

/-- With a limit a line is what the keys type until it is met, and what ends it if it is not. -/
theorem editLine_some (n : ℕ) (line input : List Byte) :
  editLine (some n) line input = if (fill n line (keys input)).length = n
    then fill n line (keys input) else fill n line (keys input) ++ ending input
  := by
  induction input generalizing line with
  | nil =>
      show line = if line.length = n then line else line ++ []
      rw [List.append_nil, ite_self]
  | cons c input ih =>
      by_cases hn : line.length = n
      · have hfill : fill n line (keys (c :: input)) = line := by
          cases keys (c :: input) with
          | nil => rfl
          | cons key keys => rw [fill, if_pos hn]
        rw [hfill, if_pos hn, editLine, if_pos (congrArg some hn.symm)]
      · have hlimit : some n ≠ some line.length := fun h => hn (Option.some.inj h).symm
        by_cases hend : EndsLine c
        · rw [editLine_of_end hlimit hend, keys_of_end hend, fill, if_neg hn]
        · rw [editLine_cons hlimit hend, ih, keys_cons hend, fill, if_neg hn, ending_cons hend]

/-- A line does not become longer than its limit. -/
theorem length_editLine_le (n : ℕ) (input : List Byte) :
  (editLine (some n) [] input).length ≤ n
  := by
  have hle : (fill n [] (keys input)).length ≤ n := length_fill_le (Nat.zero_le n)
  have hending : (ending input).length ≤ 1 := by
    rw [ending]
    split
    · exact Nat.zero_le 1
    · split
      · exact Nat.zero_le 1
      · exact Nat.le_refl 1
  rw [editLine_some]
  split
  case isTrue h => exact hle
  case isFalse h =>
    rw [List.length_append]
    omega

/-! ### Turns -/

variable {s : Shell} {k : ℕ}

theorem readChar_nil (h : s.input = []) :
  readChar s = .done 0 s
  := by
  rw [readChar, bind_done (get_apply s), h]
  rfl

theorem readChar_cons (h : s.input = c :: input) :
  readChar s = .done c { s with input := input }
  := by
  rw [readChar, bind_done (get_apply s), h]
  rfl

/-- What is written to the terminal changes nothing else. -/
theorem when_fputchar_returns (p : Prop) [Decidable p] (c : Byte) :
  Returns s (when p (fputchar c)) fun _ s' => s'.input = s.input ∧ s'.readBuf = s.readBuf
  := by
  by_cases hp : p
  · rw [when_pos hp]
    exact ⟨(), _, rfl, rfl, rfl⟩
  · rw [when_neg hp]
    exact Returns.pure ⟨rfl, rfl⟩

theorem keepChar_returns (hc : c ≠ 0) :
  Returns s (keepChar c) fun _ s' =>
    s'.input = s.input ∧ s'.readBuf.text = s.readBuf.text ++ [c]
  := ⟨(), _, rfl, rfl, CharBuf.text_append hc⟩

theorem dropChar_returns :
  Returns s dropChar fun _ s' =>
    s'.input = s.input ∧ s'.readBuf.text = s.readBuf.text.dropLast
  := by
  apply Returns.get
  apply Returns.modify
  rintro s' rfl
  split
  · exact ⟨(), _, rfl, rfl, CharBuf.text_dropLast⟩
  · exact ⟨(), _, rfl, rfl, CharBuf.text_dropLast⟩

/-- At the end of file the loop ends. -/
theorem readTurn_nil (h : s.input = []) :
  readTurn s = .done false s
  := by
  rw [readTurn, bind_done (readChar_nil h), if_pos rfl, pure_apply]

/-- A byte that ends the line is kept as a newline, or ends it as the end of file. -/
theorem readTurn_of_end (h : s.input = c :: input) (hend : EndsLine c) :
  Returns s readTurn fun keepReading s' =>
    keepReading = false ∧ s'.readBuf.text = s.readBuf.text ++ ending (c :: input)
  := by
  apply Returns.step (readChar_cons h)
  rw [ending_of_end hend]
  by_cases hzero : c = 0
  · rw [if_pos hzero]
    apply Returns.pure
    rw [if_pos hzero, List.append_nil]
    exact ⟨rfl, rfl⟩
  · have hnewline := hend.resolve_left hzero
    have hdelete : c ≠ delete := by
      rcases hnewline with rfl | rfl
      · decide
      · decide
    rw [if_neg hzero, if_neg hdelete, if_pos hnewline, if_neg hzero]
    apply (when_fputchar_returns _ c).bind
    rintro _ s₁ ⟨-, hbuf⟩
    apply (keepChar_returns (c := lineFeed) (by decide)).bind
    rintro _ s₂ ⟨-, htext⟩
    apply Returns.pure
    exact ⟨rfl, by rw [htext, hbuf]⟩

/-- Another byte edits the line. -/
theorem readTurn_of_not_end (h : s.input = c :: input) (hend : ¬ EndsLine c) :
  Returns s readTurn fun keepReading s' =>
    keepReading = true ∧ s'.input = input ∧ s'.readBuf.text = press s.readBuf.text (key c)
  := by
  apply Returns.step (readChar_cons h)
  rw [EndsLine, not_or] at hend
  rw [if_neg hend.1, if_neg hend.2, key]
  by_cases hdelete : c = delete
  · rw [if_pos hdelete, if_pos hdelete]
    apply dropChar_returns.bind
    rintro _ s' hs'
    exact Returns.pure ⟨rfl, hs'⟩
  · rw [if_neg hdelete, if_neg hdelete]
    apply (keepChar_returns hend.1).bind
    rintro _ s' hs'
    exact Returns.pure ⟨rfl, hs'⟩

/-- Whatever the limit, the loop reads a whole line. -/
theorem readLoop_returns {readMax : ℤ} (hmax : readMax = -1 ∨ 0 < readMax)
    (hk : s.input.length < k) :
  Returns s (readLoop readMax k) fun _ s' =>
    s'.readBuf.text = editLine none s.readBuf.text s.input
  := by
  induction k generalizing s with
  | zero => contradiction
  | succ k ih =>
      rw [readLoop, if_pos hmax]
      cases hinput : s.input with
      | nil =>
          apply Returns.step (readTurn_nil hinput)
          exact Returns.pure rfl
      | cons c input =>
          have hlimit : none ≠ some s.readBuf.text.length := (Option.some_ne_none _).symm
          rw [hinput, List.length_cons] at hk
          by_cases hend : EndsLine c
          · apply (readTurn_of_end hinput hend).bind
            rintro _ s' ⟨rfl, htext⟩
            rw [editLine_of_end hlimit hend]
            exact Returns.pure htext
          · apply (readTurn_of_not_end hinput hend).bind
            rintro _ s' ⟨rfl, rfl, htext⟩
            rw [editLine_cons hlimit hend, ← htext]
            exact ih (by omega)

/-- Without a turn of the loop there is nothing in the line. -/
theorem readLoop_zero (k : ℕ) :
  readLoop 0 (k + 1) s = .done () s
  := by
  rw [readLoop, if_neg (by decide), pure_apply]

/-- The function returns what the loop leaves in the buffer. -/
theorem readPromptShell_returns {promptStr : List Byte} (hprompt : promptStr ≠ []) {readMax : ℤ}
    {Q : List Byte → Prop}
    (hloop : ∀ s' : Shell, s'.input = s.input → s'.readBuf.text = [] →
      Returns s' (readLoop readMax k) fun _ s'' => Q s''.readBuf.text) :
  Returns s (readPromptShell k promptStr readMax) fun buf _ => Q buf.text
  := by
  obtain ⟨init, c, hlast⟩ : ∃ init c, promptStr = init ++ [c] := by
    rcases List.eq_nil_or_concat promptStr with hnil | ⟨init, c, hlast⟩
    · exact absurd hnil hprompt
    · exact ⟨init, c, by rw [hlast, List.concat_eq_append]⟩
  subst hlast
  apply Returns.modify
  rintro s₁ rfl
  apply Returns.modify
  rintro s₂ rfl
  rw [List.getLast?_concat]
  apply (when_fputchar_returns _ _).bind
  rintro _ s' ⟨hinput, hbuf⟩
  have hclear : s'.readBuf.text = [] := by
    rw [hbuf]
    exact CharBuf.text_clear
  apply (hloop s' hinput hclear).bind
  rintro _ s'' hQ
  exact Returns.get (Returns.pure hQ)

/-! ### The limit -/

/-- The limit as the function is given it: -1 for none. -/
def readMaxOf : Option ℕ → ℤ
  | none => -1
  | some n => n

/-- The line that is read is the one that the bytes make, and is not longer than the limit. -/
def ReadsLine (s : Shell) (promptStr : List Byte) (limit : Option ℕ) : Prop :=
  ∃ k₀, ∀ k ≥ k₀, Returns s (readPromptShell k promptStr (readMaxOf limit)) fun buf _ =>
    buf.text = editLine limit [] s.input ∧ ∀ n ∈ limit, buf.text.length ≤ n

/-- Behind the point at which a line has `n` characters the end of file ends it, and its keys
remove no other characters than they type again. -/
def Retypes (n : ℕ) (input : List Byte) : Prop :=
  ∀ u v, keys input = u ++ v → Fills n [] u →
    ending input = [] ∧ (net v).2 = (edit [] u).drop (n - (net v).1)

/-- No newline is typed before the end of the line. -/
theorem lineFeed_notMem_edit {u : List (Option Byte)} (hu : u <+: keys input) :
  lineFeed ∉ edit [] u
  := by
  intro hmem
  have hkey := (mem_edit hmem).resolve_left List.not_mem_nil
  obtain ⟨c, hc, hckey⟩ := List.mem_map.mp (hu.subset hkey)
  have hne : c ≠ 0 ∧ c ≠ carriageReturn ∧ c ≠ lineFeed := by
    simpa using List.mem_takeWhile_imp hc
  rw [key] at hckey
  split at hckey
  · cases hckey
  · exact hne.2.2 (Option.some.inj hckey)

theorem ending_cases (input : List Byte) :
  ending input = [] ∨ ending input = [lineFeed]
  := by
  rw [ending]
  split
  · exact .inl rfl
  · split
    · exact .inl rfl
    · exact .inr rfl

/-- The limit is without effect exactly if the keys behind it are. -/
theorem editLine_eq_iff {n : ℕ} {input : List Byte} :
  editLine none [] input = editLine (some n) [] input ↔ Retypes n input
  := by
  rw [editLine_none, editLine_some]
  rcases fill_cases n [] (keys input) with ⟨hfill, hne⟩ | ⟨u, v, hkeys, hu, hfill⟩
  · rw [hfill, if_neg (hne _ (List.prefix_refl _))]
    constructor
    · intro _ u v hkeys hu
      exact absurd hu.1 (hne u ⟨v, hkeys.symm⟩)
    · intro _
      rfl
  · have hself : edit (edit [] u) v = edit [] u ↔ _ := edit_eq_self_iff
    rw [hu.1] at hself
    rw [hfill, if_pos hu.1, hkeys, edit_append]
    constructor
    · intro h u' v' hkeys' hu'
      obtain rfl := hu'.eq hu ⟨v', hkeys'.symm⟩ ⟨v, hkeys.symm⟩
      obtain rfl := List.append_cancel_left (hkeys'.symm.trans hkeys)
      rcases ending_cases input with hending | hending
      · rw [hending, List.append_nil, hself] at h
        exact ⟨hending, h⟩
      · have hmem : lineFeed ∈ edit [] u' := by
          rw [← h, hending]
          exact List.mem_append_right _ List.mem_cons_self
        exact absurd hmem (lineFeed_notMem_edit ⟨v', hkeys'.symm⟩)
    · intro h
      obtain ⟨hending, hnet⟩ := h u v hkeys hu
      rw [hending, List.append_nil, hself, hnet]

/-- What the function reads is the whole line, unless the limit is 0. -/
theorem readPromptShell_text {promptStr : List Byte} (hprompt : promptStr ≠ [])
    (hk : s.input.length < k) (limit : Option ℕ) :
  Returns s (readPromptShell k promptStr (readMaxOf limit)) fun buf _ =>
    buf.text = if limit = some 0 then [] else editLine none [] s.input
  := by
  apply readPromptShell_returns hprompt (Q := fun text =>
    text = if limit = some 0 then [] else editLine none [] s.input)
  intro s' hinput htext
  by_cases hlimit : limit = some 0
  · obtain ⟨k, rfl⟩ := Nat.exists_eq_add_of_lt hk
    rw [hlimit, if_pos rfl]
    exact ⟨(), s', readLoop_zero _, htext⟩
  · have hmax : readMaxOf limit = -1 ∨ 0 < readMaxOf limit := by
      cases limit with
      | none => exact .inl rfl
      | some n =>
          right
          rw [readMaxOf]
          rw [Option.some.injEq] at hlimit
          omega
    rw [if_neg hlimit, ← htext, ← hinput]
    exact readLoop_returns hmax (hinput ▸ hk)

theorem editLine_zero (input : List Byte) :
  editLine (some 0) [] input = []
  := List.eq_nil_of_length_eq_zero (Nat.le_zero.mp (length_editLine_le 0 input))

theorem readsLine_iff {promptStr : List Byte} (hprompt : promptStr ≠ []) (s : Shell)
    (limit : Option ℕ) :
  ReadsLine s promptStr limit ↔ ∀ n ∈ limit, n ≠ 0 → Retypes n s.input
  := by
  have hread : ReadsLine s promptStr limit ↔ (if limit = some 0 then [] else editLine none [] s.input)
      = editLine limit [] s.input := by
    constructor
    · rintro ⟨k₀, hreads⟩
      obtain ⟨buf, s', hrun, htext, -⟩ := hreads (k₀ + (s.input.length + 1)) (Nat.le_add_right _ _)
      have hwhole := (readPromptShell_text hprompt (by omega) limit).done hrun
      rw [← hwhole, htext]
    · intro h
      refine ⟨s.input.length + 1, ?_⟩
      intro k hk
      apply (readPromptShell_text hprompt hk limit).mono
      rintro buf _ htext
      rw [h] at htext
      refine ⟨htext, ?_⟩
      rintro n hn
      obtain rfl := Option.mem_def.mp hn
      rw [htext]
      exact length_editLine_le n s.input
  rw [hread]
  cases limit with
  | none => simp
  | some n =>
      cases n with
      | zero => simp [editLine_zero]
      | succ n =>
          rw [if_neg (by simp), editLine_eq_iff]
          simp

/-- A line without a limit. -/
theorem readsLine_iff_unlimited :
  ReadsLine ⟨[97, 127, 98, 13], [], mkCharBuf 32⟩ [62, 32] none
  := (readsLine_iff (List.cons_ne_nil _ _) _ _).mpr (by simp)

/-- With a limit of one character two are read. -/
theorem not_readsLine :
  ¬ ReadsLine ⟨[97, 98, 10], [], mkCharBuf 32⟩ [62, 32] (some 1)
  := by
  rintro ⟨k₀, hreads⟩
  obtain ⟨buf, s', hrun, htext, -⟩ := hreads (k₀ + 4) (Nat.le_add_right _ _)
  have hwhole := (readPromptShell_text (List.cons_ne_nil _ _) (by simp) (some 1)).done hrun
  rw [hwhole] at htext
  revert htext
  decide

end

end Torgo
