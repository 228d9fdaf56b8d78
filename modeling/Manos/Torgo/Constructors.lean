import Manos.Lib.Blocks
import Manos.Torgo.Buffers
import Manos.Torgo.Parser

/-!
# Constructors of the shell

The functions of `string.c`, `charbuf.c` and `parser.c` that request memory for what they make,
over a memory of blocks in which any request may be refused.  A field that was not assigned to is
kept apart from a null pointer.
-/

namespace Torgo.Constructors

open Exec Blocks
open Buffers (CStr)

/-! ### Blocks -/

/-- `String` -/
structure DString where
  str : Option Ptr := none
  size : Option ℕ := none
deriving DecidableEq

/-- `CharBuf` -/
structure CharBuf where
  data : Option Ptr := none
  size : Option ℕ := none
  used : Option ℕ := none
deriving DecidableEq

/-- `InputChain` -/
structure InputChain where
  input : Option Ptr := none
  next : Option Ptr := none
deriving DecidableEq

/-- `Parser`; the pointer `input` is to a byte of a block. -/
structure Parser where
  tokens : Option Ptr := none
  token : Option Ptr := none
  inputChain : Option Ptr := none
  last : Option Ptr := none
  input : Option (Option (ℕ × ℕ)) := none
  state : Option ParserState := none
deriving DecidableEq

/-- What a block is used for. -/
inductive Block where
  | chars (bytes : List Byte)
  | string (s : DString)
  | charBuf (b : CharBuf)
  | link (c : InputChain)
  | parser (q : Parser)
deriving DecidableEq

abbrev Mem : Type := Memory Block

/-- The bytes that a `char *` points to. -/
abbrev chars : Kind Block (List Byte) where
  block := .chars
  value | .chars bytes => some bytes | _ => none
  value_block _ := rfl

abbrev string : Kind Block DString where
  block := .string
  value | .string s => some s | _ => none
  value_block _ := rfl

abbrev charBuf : Kind Block CharBuf where
  block := .charBuf
  value | .charBuf b => some b | _ => none
  value_block _ := rfl

abbrev link : Kind Block InputChain where
  block := .link
  value | .link c => some c | _ => none
  value_block _ := rfl

abbrev parser : Kind Block Parser where
  block := .parser
  value | .parser q => some q | _ => none
  value_block _ := rfl

/-- The pointer in a field.  `kmalloc` clears a block, so that a field which was not assigned to is
read as the null pointer. -/
def pointer (field : Option Ptr) : Ptr := field.getD none

/-- The size in a field. -/
def number (field : Option ℕ) : ℕ := field.getD 0

/-- The first `n` bytes of a block. -/
def loadBytes (what : String) (p : Ptr) (n : ℕ) : Exec Mem (List Byte) := do
  let bytes ← chars.read what p
  if n ≤ bytes.length then return bytes.take n else fault (.wild what)

/-- The bytes `s` are stored in a block, from the offset `i` on. -/
def storeBytes (what : String) (p : Ptr) (i : ℕ) (s : List Byte) : Exec Mem Unit := do
  let bytes ← chars.read what p
  if i + s.length ≤ bytes.length then
    chars.assign what p fun _ => bytes.take i ++ s ++ bytes.drop (i + s.length)
  else fault (.wild what)

/-! ### The functions -/

/-- `mkString`.  If the second request is refused, it is the null pointer that is freed. -/
def mkString (cstr : CStr) : Exec Mem Ptr := do
  let str ← kmalloc (.string {})
  if str = none then return str
  else
    let size := cstr.bytes.length
    string.assign "str" str fun s => { s with size := some size }
    let cstr₀ ← kmalloc (.chars (.replicate (size + 1) 0))
    if cstr₀ = none then
      kfree cstr₀
      return str
    else
      storeBytes "cstr0" cstr₀ 0 cstr.bytes
      storeBytes "cstr0" cstr₀ size [0]
      string.assign "str" str fun s => { s with str := some cstr₀ }
      return str

/-- `freeString` -/
def freeString (str : Ptr) : Exec Mem Unit := do
  string.assign "str" str fun s => { s with size := some 0 }
  let s ← string.read "str" str
  kfree (pointer s.str)
  kfree str

/-- `fromString` -/
def fromString (str : Ptr) : Exec Mem Ptr := do
  let s ← string.read "str" str
  return pointer s.str

/-- `concatString`, which returns `str` after it was freed if the second request is refused -/
def concatString (a b : Ptr) : Exec Mem Ptr := do
  let str ← kmalloc (.string {})
  if str = none then return str
  else
    let a ← string.read "a" a
    let b ← string.read "b" b
    let size := number a.size + number b.size
    let cstr ← kmalloc (.chars (.replicate (size + 1) 0))
    if cstr = none then
      kfree str
      return str
    else
      let bytes ← loadBytes "a->str" (pointer a.str) (number a.size)
      storeBytes "cstr" cstr 0 bytes
      let bytes' ← loadBytes "b->str" (pointer b.str) (number b.size)
      storeBytes "cstr" cstr (number a.size) bytes'
      string.assign "str" str fun s => { s with size := some size }
      storeBytes "cstr" cstr size [0]
      string.assign "str" str fun s => { s with str := some cstr }
      return str

/-- `mkCharBuf`, which returns `buf` after it was freed if the second request is refused -/
def mkCharBuf (size : ℕ) : Exec Mem Ptr := do
  let buf ← kmalloc (.charBuf {})
  if buf = none then return buf
  else
    let data ← kmalloc (.chars (.replicate size 0))
    charBuf.assign "buf" buf fun b => { b with data := some data }
    if data = none then
      kfree buf
      return buf
    else
      charBuf.assign "buf" buf fun b => { b with used := some 0 }
      charBuf.assign "buf" buf fun b => { b with size := some size }
      return buf

/-- The part of `mkParser` that assigns to the fields but for the buffer. -/
def clearParser (p : Ptr) : Exec Mem Unit := do
  parser.assign "p" p fun q => { q with inputChain := some none }
  parser.assign "p" p fun q => { q with last := some none }
  parser.assign "p" p fun q => { q with input := some none }
  parser.assign "p" p fun q => { q with tokens := some none }
  parser.assign "p" p fun q => { q with state := some .ready }

/-- `mkParser`, which returns `p` after it was freed if there is no buffer for the token -/
def mkParser : Exec Mem Ptr := do
  let p ← kmalloc (.parser {})
  if p = none then return p
  else
    let token ← mkCharBuf 32
    parser.assign "p" p fun q => { q with token := some token }
    if token = none then
      kfree p
      return p
    else
      clearParser p
      return p

/-- The part of `addInputParser` that appends the link `l` to the chain. -/
def appendLink (p l : Ptr) : Exec Mem Unit := do
  let q ← parser.read "p" p
  if pointer q.last ≠ none then
    link.assign "p->last" (pointer q.last) fun c => { c with next := some l }
  else
    parser.assign "p" p fun q => { q with inputChain := some l }
    let c ← link.read "link" l
    let text ← fromString (pointer c.input)
    parser.assign "p" p fun q => { q with input := some (text.map fun a => (a, 0)) }

/-- The part of `addInputParser` for the string that was made.  If there is no link, the string is
read after it was freed. -/
def addStringParser (p inputStr : Ptr) : Exec Mem Ptr := do
  let l ← kmalloc (.link {})
  if l = none then
    freeString inputStr
    fromString inputStr
  else
    link.assign "link" l fun c => { c with input := some inputStr }
    link.assign "link" l fun c => { c with next := some none }
    appendLink p l
    parser.assign "p" p fun q => { q with last := some l }
    fromString inputStr

/-- `addInputParser` -/
def addInputParser (p : Ptr) (input : CStr) : Exec Mem Ptr := do
  let inputStr ← mkString input
  if inputStr = none then return none
  else addStringParser p inputStr

/-! ### Whole structures -/

variable {m s : Mem} {a b d n i : ℕ} {p : Ptr} {bytes : List Byte} {what : String}

/-- The string in the block `a` has its fields, and the bytes of it and the zero are in a block. -/
def WholeString (s : Mem) (a : ℕ) : Prop :=
  ∃ (str size : ℕ) (bytes : List Byte),
    s.blocks a = some (.string ⟨some (some str), some size⟩)
      ∧ s.blocks str = some (.chars bytes) ∧ size < bytes.length

/-- The buffer in the block `a` has its fields, and its bytes are in a block. -/
def WholeCharBuf (s : Mem) (a : ℕ) : Prop :=
  ∃ (data size : ℕ) (bytes : List Byte),
    s.blocks a = some (.charBuf ⟨some (some data), some size, some 0⟩)
      ∧ s.blocks data = some (.chars bytes) ∧ bytes.length = size

/-! ### The bytes of a block -/

theorem loadBytes_done (h : m.blocks a = some (.chars bytes)) (hn : n ≤ bytes.length) :
  loadBytes what (some a) n m = .done (bytes.take n) m
  := by
  rw [loadBytes, bind_done (chars.read_done h what), if_pos hn]
  rfl

theorem storeBytes_done {t : List Byte} (h : m.blocks a = some (.chars bytes))
    (hi : i + t.length ≤ bytes.length) :
  storeBytes what (some a) i t m
    = .done () (m.alter a fun _ =>
        some (.chars (bytes.take i ++ t ++ bytes.drop (i + t.length))))
  := by
  rw [storeBytes, bind_done (chars.read_done h what), if_pos hi, chars.assign_done h]

/-! ### The first request is refused -/

section Refused

variable (h : m.grants 0 = false)

include h

theorem mkString_refused (cstr : CStr) :
  mkString cstr m = .done none m.refuse
  := by
  rw [mkString, bind_done (kmalloc_refused h _), if_pos rfl]
  rfl

theorem concatString_refused (p q : Ptr) :
  concatString p q m = .done none m.refuse
  := by
  rw [concatString, bind_done (kmalloc_refused h _), if_pos rfl]
  rfl

theorem mkCharBuf_refused (size : ℕ) :
  mkCharBuf size m = .done none m.refuse
  := by
  rw [mkCharBuf, bind_done (kmalloc_refused h _), if_pos rfl]
  rfl

theorem mkParser_refused :
  mkParser m = .done none m.refuse
  := by
  rw [mkParser, bind_done (kmalloc_refused h _), if_pos rfl]
  rfl

theorem addInputParser_refused (p : Ptr) (input : CStr) :
  addInputParser p input m = .done none m.refuse
  := by
  rw [addInputParser, bind_done (mkString_refused h input), if_pos rfl]
  rfl

end Refused

/-! ### Strings -/

/-- The bytes of a string are refused: the string has no bytes. -/
theorem mkString_torn (h₀ : m.grants 0 = true) (h₁ : m.grants 1 = false) (cstr : CStr) :
  Returns m (mkString cstr) fun p s => p = some m.allocated ∧ After m s 2 1
    ∧ s.blocks m.allocated = some (.string ⟨none, some cstr.bytes.length⟩)
  := by
  rw [mkString]
  refine .step (kmalloc_granted h₀ _) ?_
  rw [if_neg nofun]
  refine .step (string.assign_done (give_self _ _) _ _) ?_
  refine .step (kmalloc_refused h₁ _) ?_
  rw [if_pos rfl]
  refine .step (kfree_null _) ?_
  refine .pure ⟨rfl, ?_, ?_⟩
  · exact (((After.refl m).give _).alter (le_refl _) _).refuse
  · simp

/-- A string that is made has its bytes and a zero after them in the next block. -/
theorem mkString_whole (h₀ : m.grants 0 = true) (h₁ : m.grants 1 = true) (cstr : CStr) :
  Returns m (mkString cstr) fun p s => p = some m.allocated ∧ After m s 2 2
    ∧ s.blocks m.allocated = some (.string ⟨some (some (m.allocated + 1)), some cstr.bytes.length⟩)
    ∧ s.blocks (m.allocated + 1) = some (.chars (cstr.bytes ++ [0]))
  := by
  rw [mkString]
  refine .step (kmalloc_granted h₀ _) ?_
  rw [if_neg nofun]
  refine .step (string.assign_done (give_self _ _) _ _) ?_
  refine .step (kmalloc_granted h₁ _) ?_
  rw [if_neg nofun]
  refine .step (storeBytes_done (by simp; rfl) (by simp)) ?_
  refine .step (storeBytes_done (by simp; rfl) (by simp)) ?_
  refine .step (string.assign_done (by simp; rfl) _ _) ?_
  refine .pure ⟨rfl, ?_, ?_, ?_⟩
  · refine .alter (.alter (.alter ?_ (Nat.le_succ _) _) (Nat.le_succ _) _) (le_refl _) _
    exact (((After.refl m).give _).alter (le_refl _) _).give _
  · simp
  · simp

/-- The bytes of the string are refused: what is returned is a pointer to a block that was
freed. -/
theorem concatString_freed (h₀ : m.grants 0 = true) (h₁ : m.grants 1 = false)
    (ha : WholeString m a) (hb : WholeString m b) :
  Returns m (concatString (some a) (some b)) fun p s =>
    p = some m.allocated ∧ s.blocks m.allocated = none
  := by
  obtain ⟨str, n, bytes, hstr, -⟩ := ha
  obtain ⟨str', n', bytes', hstr', -⟩ := hb
  rw [concatString]
  refine .step (kmalloc_granted h₀ _) ?_
  rw [if_neg nofun]
  have h := (After.refl m).give (Block.string {})
  refine .step (string.read_done (h.live hstr) _) ?_
  refine .step (string.read_done (h.live hstr') _) ?_
  refine .step (kmalloc_refused h₁ _) ?_
  rw [if_pos rfl]
  refine .step (kfree_done (b := .string {}) (by simp)) ?_
  refine .pure ⟨rfl, ?_⟩
  simp

theorem concatString_whole (h₀ : m.grants 0 = true) (h₁ : m.grants 1 = true)
    (ha : WholeString m a) (hb : WholeString m b) :
  Returns m (concatString (some a) (some b)) fun p s =>
    p = some m.allocated ∧ After m s 2 2 ∧ WholeString s m.allocated
  := by
  obtain ⟨str, n, bytes, hstr, hbytes, hn⟩ := ha
  obtain ⟨str', n', bytes', hstr', hbytes', hn'⟩ := hb
  rw [concatString]
  refine .step (kmalloc_granted h₀ _) ?_
  rw [if_neg nofun]
  have h := (After.refl m).give (Block.string {})
  refine .step (string.read_done (h.live hstr) _) ?_
  refine .step (string.read_done (h.live hstr') _) ?_
  dsimp only [number, pointer, Option.getD_some]
  refine .step (kmalloc_granted h₁ _) ?_
  rw [if_neg nofun]
  replace h := h.give (Block.chars (.replicate (n + n' + 1) 0))
  refine .step (loadBytes_done (h.live hbytes) (Nat.le_of_lt hn)) ?_
  refine .step (storeBytes_done (by simp; rfl) (by simp; omega)) ?_
  refine .step (loadBytes_done ((h.alter (Nat.le_succ _) _).live hbytes') (Nat.le_of_lt hn')) ?_
  refine .step (storeBytes_done (by simp; rfl) (by simp; omega)) ?_
  refine .step (string.assign_done (by simp; rfl) _ _) ?_
  refine .step (storeBytes_done (by simp; rfl) (by simp; omega)) ?_
  refine .step (string.assign_done (by simp; rfl) _ _) ?_
  refine .pure ⟨rfl, ?_, ?_⟩
  · refine .alter (.alter (.alter (.alter (.alter h ?_ _) ?_ _) ?_ _) ?_ _) ?_ _
    all_goals simp
  · refine ⟨m.allocated + 1, n + n', _, by simp, by simp; rfl, ?_⟩
    simp
    omega

/-! ### Buffers -/

/-- The data of the buffer are refused: what is returned is a pointer to a block that was freed. -/
theorem mkCharBuf_freed (h₀ : m.grants 0 = true) (h₁ : m.grants 1 = false) (size : ℕ) :
  Returns m (mkCharBuf size) fun p s => p = some m.allocated ∧ After m s 2 1
    ∧ s.blocks m.allocated = none
  := by
  rw [mkCharBuf]
  refine .step (kmalloc_granted h₀ _) ?_
  rw [if_neg nofun]
  refine .step (kmalloc_refused h₁ _) ?_
  refine .step (charBuf.assign_done (x := {}) (by simp) _ _) ?_
  rw [if_pos rfl]
  refine .step (kfree_done (by simp; rfl)) ?_
  refine .pure ⟨rfl, ?_, ?_⟩
  · exact (((After.refl m).give _).refuse.alter (le_refl _) _).alter (le_refl _) _
  · simp

theorem mkCharBuf_whole (h₀ : m.grants 0 = true) (h₁ : m.grants 1 = true) (size : ℕ) :
  Returns m (mkCharBuf size) fun p s => p = some m.allocated ∧ After m s 2 2
    ∧ WholeCharBuf s m.allocated
  := by
  rw [mkCharBuf]
  refine .step (kmalloc_granted h₀ _) ?_
  rw [if_neg nofun]
  refine .step (kmalloc_granted h₁ _) ?_
  refine .step (charBuf.assign_done (x := {}) (by simp) _ _) ?_
  rw [if_neg nofun]
  refine .step (charBuf.assign_done (by simp; rfl) _ _) ?_
  refine .step (charBuf.assign_done (by simp; rfl) _ _) ?_
  refine .pure ⟨rfl, ?_, ?_⟩
  · refine .alter (.alter (.alter ?_ (le_refl _) _) (le_refl _) _) (le_refl _) _
    exact ((After.refl m).give _).give _
  · exact ⟨m.allocated + 1, size, .replicate size 0, by simp, by simp, List.length_replicate⟩

/-- If the request for the buffer is granted, the pointer to it is returned in any case. -/
theorem mkCharBuf_some (h₀ : m.grants 0 = true) (size : ℕ) :
  Returns m (mkCharBuf size) fun p s => p = some m.allocated ∧ ∃ k, After m s 2 k
  := by
  cases h₁ : m.grants 1 with
  | false => exact (mkCharBuf_freed h₀ h₁ size).mono fun p s h => ⟨h.1, _, h.2.1⟩
  | true => exact (mkCharBuf_whole h₀ h₁ size).mono fun p s h => ⟨h.1, _, h.2.1⟩

/-! ### Parsers -/

/-- The fields of the parser have been assigned to. -/
def Parser.IsSet (q : Parser) : Prop :=
  q.tokens ≠ none ∧ q.token ≠ none ∧ q.inputChain ≠ none ∧ q.last ≠ none ∧ q.input ≠ none
    ∧ q.state ≠ none

/-- A buffer is whole after a parser was changed. -/
theorem WholeCharBuf.alter_parser {q : Parser} (h : WholeCharBuf m b)
    (hq : m.blocks a = some (.parser q)) (f : Block → Option Block) :
  WholeCharBuf (m.alter a f) b
  := by
  obtain ⟨data, size, bytes, hbuf, hdata, hsize⟩ := h
  refine ⟨data, size, bytes, ?_, ?_, hsize⟩
  · exact alter_other hq hbuf nofun f
  · exact alter_other hq hdata nofun f

/-- The parser in the block `a` has its fields, and its buffer is whole. -/
def WholeParser (s : Mem) (a : ℕ) : Prop :=
  ∃ (q : Parser) (token : ℕ), s.blocks a = some (.parser q) ∧ q.IsSet
    ∧ q.token = some (some token) ∧ WholeCharBuf s token

/-- The parser of which the fields but for the buffer have been assigned to. -/
def ready (token : Option Ptr) : Parser where
  tokens := some none
  token := token
  inputChain := some none
  last := some none
  input := some none
  state := some .ready

theorem clearParser_done {q : Parser} (h : m.blocks a = some (.parser q)) :
  clearParser (some a) m = .done () (m.alter a fun _ => some (.parser (ready q.token)))
  := by
  rw [clearParser, bind_done (parser.assign_done h _ _)]
  rw [bind_done (parser.assign_done (alter_self h _) _ _), alter_alter]
  rw [bind_done (parser.assign_done (alter_self h _) _ _), alter_alter]
  rw [bind_done (parser.assign_done (alter_self h _) _ _), alter_alter]
  rw [parser.assign_done (alter_self h _), alter_alter]
  rfl

/-- If the request for the parser is granted, a pointer is returned in any case. -/
theorem mkParser_some (h₀ : m.grants 0 = true) :
  Returns m mkParser fun p _ => p = some m.allocated
  := by
  rw [mkParser]
  refine .step (kmalloc_granted h₀ _) ?_
  rw [if_neg nofun]
  have hlive := give_self (Block.parser {}) m
  cases h₁ : m.grants 1 with
  | false =>
      refine .step (mkCharBuf_refused h₁ 32) ?_
      refine .step (parser.assign_done (m := (m.give _).refuse) hlive _ _) ?_
      rw [if_pos rfl]
      refine .step (kfree_done (by simp; rfl)) ?_
      exact .pure rfl
  | true =>
      refine (mkCharBuf_some h₁ 32).bind ?_
      rintro _ s ⟨rfl, k, hs⟩
      refine .step (parser.assign_done (hs.live hlive) _ _) ?_
      rw [if_neg nofun]
      refine .step (clearParser_done (alter_self (hs.live hlive) _)) ?_
      exact .pure rfl

theorem mkParser_whole (h₀ : m.grants 0 = true) (h₁ : m.grants 1 = true) (h₂ : m.grants 2 = true) :
  Returns m mkParser fun p s => p = some m.allocated ∧ After m s 3 3 ∧ WholeParser s m.allocated
  := by
  rw [mkParser]
  refine .step (kmalloc_granted h₀ _) ?_
  rw [if_neg nofun]
  have h := (After.refl m).give (Block.parser {})
  have hlive := give_self (Block.parser {}) m
  refine (mkCharBuf_whole h₁ h₂ 32).bind ?_
  rintro _ s ⟨rfl, hs, hbuf⟩
  refine .step (parser.assign_done (hs.live hlive) _ _) ?_
  rw [if_neg nofun]
  refine .step (clearParser_done (alter_self (hs.live hlive) _)) ?_
  rw [alter_alter]
  refine .pure ⟨rfl, ?_, ready _, m.allocated + 1, ?_, ?_, rfl, ?_⟩
  · exact (h.trans hs).alter (le_refl _) _
  · exact alter_self (hs.live hlive) _
  · exact ⟨nofun, nofun, nofun, nofun, nofun, nofun⟩
  · exact hbuf.alter_parser (hs.live hlive) _

/-! ### Input -/

/-- The parser in the block `a` has its fields, and its last link is in a block if there is one. -/
def ReadyForInput (m : Mem) (a : ℕ) : Prop :=
  ∃ q : Parser, m.blocks a = some (.parser q) ∧ q.IsSet
    ∧ ∀ l, q.last = some (some l) → ∃ c, m.blocks l = some (.link c)

theorem fromString_done {str : DString} (h : m.blocks a = some (.string str)) :
  fromString (some a) m = .done (pointer str.str) m
  := by
  rw [fromString, bind_done (string.read_done h _)]
  rfl

/-- A string that was freed is not read. -/
theorem fromString_freed (h : m.blocks a = none) :
  fromString (some a) m = .stop (.wild "str") m
  := by
  rw [fromString, Kind.read]
  exact bind_stop (bind_stop (load_stop h _))

/-- The string in the block `a` has its size, and its bytes if they were granted. -/
def HasSize (s : Mem) (a : ℕ) (str : DString) : Prop :=
  s.blocks a = some (.string str) ∧ str.size ≠ none
    ∧ ∀ d, pointer str.str = some d → ∃ bytes, s.blocks d = some (.chars bytes)

/-- If the request for the string is granted, a pointer is returned in any case. -/
theorem mkString_some (h₀ : m.grants 0 = true) (cstr : CStr) :
  Returns m (mkString cstr) fun p s =>
    p = some m.allocated ∧ ∃ k str, After m s 2 k ∧ HasSize s m.allocated str
  := by
  cases h₁ : m.grants 1 with
  | false =>
      apply (mkString_torn h₀ h₁ cstr).mono
      rintro p s ⟨hp, hs, hstr⟩
      exact ⟨hp, 1, _, hs, hstr, nofun, nofun⟩
  | true =>
      apply (mkString_whole h₀ h₁ cstr).mono
      rintro p s ⟨hp, hs, hstr, hbytes⟩
      refine ⟨hp, 2, _, hs, hstr, nofun, ?_⟩
      rintro d ⟨⟩
      exact ⟨_, hbytes⟩

/-- The string is freed, whether it has bytes or not. -/
theorem freeString_freed {str : DString} (h : HasSize m a str) :
  Returns m (freeString (some a)) fun _ s => s.blocks a = none
  := by
  obtain ⟨hstr, -, hbytes⟩ := h
  rw [freeString]
  refine .step (string.assign_done hstr _ _) ?_
  refine .step (string.read_done (alter_self hstr _) _) ?_
  dsimp only
  cases hd : pointer str.str with
  | none =>
      refine .step (kfree_null _) ?_
      refine ⟨_, _, kfree_done (alter_self hstr _), ?_⟩
      simp
  | some d =>
      obtain ⟨bytes, hd⟩ := hbytes d hd
      have hd' := alter_other hstr hd nofun fun _ => some (.string { str with size := some 0 })
      refine .step (kfree_done hd') ?_
      refine ⟨_, _, kfree_done (alter_other hd' (alter_self hstr _) nofun _), ?_⟩
      simp

/-- The link is refused: the string is read after it was freed. -/
theorem addStringParser_stop {str : DString} (h₀ : m.grants 0 = false) (h : HasSize m a str)
    (p : Ptr) :
  ∃ s, addStringParser p (some a) m = .stop (.wild "str") s
  := by
  obtain ⟨_, s, hs, hfreed⟩ := freeString_freed (m := m.refuse) h
  use s
  rw [addStringParser, bind_done (kmalloc_refused h₀ _), if_pos rfl, bind_done hs]
  exact fromString_freed hfreed

/-- A block of a string or of its bytes. -/
def Block.IsText : Block → Prop
  | chars _ => True
  | string _ => True
  | _ => False

/-- The strings of `m` are the same in `s`. -/
def KeepsTexts (m s : Mem) : Prop :=
  ∀ a b, m.blocks a = some b → b.IsText → s.blocks a = some b

namespace KeepsTexts

theorem refl (m : Mem) :
  KeepsTexts m m
  := fun _ _ h _ => h

theorem of_after {r k : ℕ} (h : After m s r k) :
  KeepsTexts m s
  := fun _ _ hb _ => h.live hb

theorem trans {t : Mem} (h : KeepsTexts m s) (h' : KeepsTexts s t) :
  KeepsTexts m t
  := fun a b hb htext => h' a b (h a b hb htext) htext

/-- A change of a block that is no part of a string. -/
theorem alter {c : Block} (h : KeepsTexts m s) (hc : s.blocks a = some c) (hnot : ¬ c.IsText)
    (f : Block → Option Block) :
  KeepsTexts m (s.alter a f)
  := by
  intro a' b hb htext
  apply alter_other hc (h a' b hb htext)
  rintro rfl
  exact hnot htext

end KeepsTexts

/-- The link `l` with the string in the block `a` is the last one of the parser `q`. -/
structure LastLink (s : Mem) (a l i : ℕ) : Prop where
  parser : ∃ q : Parser, s.blocks a = some (.parser q) ∧ q.IsSet
  link : s.blocks l = some (.link ⟨some (some i), some none⟩)

theorem appendLink_returns {l i : ℕ} {str : DString} (hp : ReadyForInput m a)
    (hl : m.blocks l = some (.link ⟨some (some i), some none⟩))
    (hne : ∀ q, m.blocks a = some (.parser q) → q.last ≠ some (some l))
    (hi : m.blocks i = some (.string str)) :
  Returns m (appendLink (some a) (some l)) fun _ s => KeepsTexts m s ∧ LastLink s a l i
  := by
  obtain ⟨q, hq, ⟨htokens, htoken, hchain, hlast, hinput, hstate⟩, hz⟩ := hp
  replace hne := hne q hq
  rw [appendLink]
  refine .step (parser.read_done hq _) ?_
  cases hptr : pointer q.last with
  | none =>
      rw [if_neg (not_not.mpr rfl)]
      refine .step (parser.assign_done hq _ _) ?_
      refine .step (link.read_done (alter_other hq hl nofun _) _) ?_
      refine .step (fromString_done (alter_other hq hi nofun _)) ?_
      refine ⟨_, _, parser.assign_done (alter_self hq _) _ _, ?_⟩
      rw [alter_alter]
      refine ⟨(KeepsTexts.refl m).alter hq not_false _, ⟨_, alter_self hq _, ?_⟩, ?_⟩
      · exact ⟨htokens, htoken, nofun, hlast, nofun, hstate⟩
      · exact alter_other hq hl nofun _
  | some z =>
      rw [if_pos nofun]
      have hlast' : q.last = some (some z) := by
        rw [← hptr, pointer, Option.getD_of_ne_none hlast]
      obtain ⟨c, hc⟩ := hz z hlast'
      refine ⟨_, _, link.assign_done hc _ _, ?_⟩
      refine ⟨(KeepsTexts.refl m).alter hc not_false _, ⟨q, alter_other hc hq nofun _, ?_⟩, ?_⟩
      · exact ⟨htokens, htoken, hchain, hlast, hinput, hstate⟩
      · rw [alter_ne, hl]
        rintro rfl
        exact hne hlast'

/-- The link is granted: it is the last one, and the result is what the string points to. -/
theorem addStringParser_returns {i : ℕ} {str : DString} (h₀ : m.grants 0 = true)
    (hp : ReadyForInput m a) (hi : m.blocks i = some (.string str)) :
  Returns m (addStringParser (some a) (some i)) fun p s =>
    p = pointer str.str ∧ KeepsTexts m s
      ∧ ∃ q l, s.blocks a = some (.parser q) ∧ q.IsSet ∧ q.last = some (some l)
          ∧ s.blocks l = some (.link ⟨some (some i), some none⟩)
  := by
  rw [addStringParser]
  refine .step (kmalloc_granted h₀ _) ?_
  rw [if_neg nofun]
  have h := (After.refl m).give (Block.link {})
  obtain ⟨q, hq, hset, hz⟩ := hp
  refine .step (link.assign_done (give_self _ _) _ _) ?_
  refine .step (link.assign_done (alter_self (give_self _ _) _) _ _) ?_
  rw [alter_alter]
  replace h := h.alter (le_refl _) fun _ => some (.link ⟨some (some i), some none⟩)
  refine (appendLink_returns ⟨q, h.live hq, hset, ?_⟩ ?_ ?_ (h.live hi)).bind ?_
  · intro z hlast
    obtain ⟨c, hc⟩ := hz z hlast
    exact ⟨c, h.live hc⟩
  · exact alter_self (give_self _ _) _
  · intro q' hq' hlast
    rw [h.live hq] at hq'
    cases hq'
    obtain ⟨c, hc⟩ := hz _ hlast
    exact absurd (Memory.lt_of_live hc) (lt_irrefl _)
  · rintro _ s ⟨hkeeps, ⟨q', hq', htokens, htoken, hchain, -, hinput, hstate⟩, hlink⟩
    have hi' := hkeeps _ _ (h.live hi) trivial
    refine .step (parser.assign_done hq' _ _) ?_
    refine ⟨_, _, fromString_done (alter_other hq' hi' nofun _), rfl, ?_, ?_⟩
    · exact ((KeepsTexts.of_after h).trans hkeeps).alter hq' not_false _
    · refine ⟨{ q' with last := some (some m.allocated) }, m.allocated, alter_self hq' _, ?_, rfl, ?_⟩
      · exact ⟨htokens, htoken, hchain, nofun, hinput, hstate⟩
      · exact alter_other hq' hlink nofun _

end Torgo.Constructors
