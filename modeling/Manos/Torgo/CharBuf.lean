import Manos.Lib.CStr

/-!
# Character buffers

The functions of `charbuf.c`.  The memory of a buffer is a list of bytes; `kmalloc` returns
memory that is zero, and it is taken to succeed.  A buffer carries the fact that the bytes
in use are not zero and that a zero follows them, so that its text is what a C function
reads from it.
-/

set_option linter.style.nameCheck false

namespace Torgo

/-- `mkString` -/
def mkString (mem : List Byte) : List Byte :=
  cstr mem

/-- `CharBuf`; the size is the length of the memory. -/
structure CharBuf where
  /-- `data` -/
  data : List Byte
  /-- `used` -/
  used : Nat
  /-- the bytes in use are not zero -/
  nonzero : 0 ∉ data.take used
  /-- a zero follows the bytes in use -/
  terminated : ∃ rest, data = data.take used ++ 0 :: rest

namespace CharBuf

variable {buf : CharBuf}

/-- The text in a buffer. -/
def text (buf : CharBuf) : List Byte :=
  buf.data.take buf.used

/-- The number of bytes in use is the length of the text. -/
theorem length_text (buf : CharBuf) :
  buf.text.length = buf.used
  := by
  obtain ⟨rest, h⟩ := buf.terminated
  have hlen := congrArg List.length h
  rw [List.length_append, List.length_cons, List.length_take] at hlen
  rw [text, List.length_take]
  omega

/-- A buffer whose memory holds a text and a zero after it. -/
def holding (s rest : List Byte) (h : 0 ∉ s) : CharBuf where
  data := s ++ 0 :: rest
  used := s.length
  nonzero := by rwa [List.take_left]
  terminated := ⟨rest, by rw [List.take_left]⟩

theorem text_holding {s rest : List Byte} (h : 0 ∉ s) :
  (holding s rest h).text = s
  := List.take_left

end CharBuf

/-- `mkCharBuf`; the sizes asked for are not zero. -/
def mkCharBuf (size : Nat) : CharBuf :=
  .holding [] (.replicate (size - 1) 0) List.not_mem_nil

/-- `clearCharBuf` -/
def clearCharBuf (buf : CharBuf) : CharBuf :=
  .holding [] buf.data.tail List.not_mem_nil

/-- `isEmptyCharBuf` -/
def isEmptyCharBuf (buf : CharBuf) : Bool :=
  buf.used = 0

/-- The memory to which `concatCharBuf` adds a string of `strSize` bytes: a new one if there
is no room for the string and its zero. -/
def CharBuf.room (buf : CharBuf) (strSize : Nat) : List Byte :=
  if buf.data.length - buf.used < strSize + 1 then
    buf.data.take buf.used ++ .replicate (strSize + buf.data.length * 2 - buf.used) 0
  else
    buf.data

theorem CharBuf.zero_notMem (buf : CharBuf) (str : List Byte) :
  0 ∉ buf.text ++ cstr str
  := by
  rw [List.mem_append]
  rintro (h | h)
  · exact buf.nonzero h
  · exact zero_notMem_cstr str h

/-- `concatCharBuf` -/
def concatCharBuf (buf : CharBuf) (str : List Byte) : CharBuf :=
  .holding (buf.text ++ cstr str)
    ((buf.room (cstr str).length).drop (buf.used + (cstr str).length + 1)) (buf.zero_notMem str)

/-- `appendCharBuf` -/
def appendCharBuf (buf : CharBuf) (c : Byte) : CharBuf :=
  concatCharBuf buf [c, 0]

/-- `dropLastCharBuf`, with the byte that it returns -/
def dropLastCharBuf (buf : CharBuf) : Byte × CharBuf :=
  if buf.used = 0 then (0, buf)
  else
    (buf.text.getLastD 0,
      .holding buf.text.dropLast (buf.data.drop buf.used)
        fun h => buf.nonzero (List.dropLast_subset _ h))

/-- `fromCharBuf` -/
def fromCharBuf (buf : CharBuf) : List Byte :=
  buf.data

/-! ### The text of a buffer -/

namespace CharBuf

variable {buf : CharBuf}

@[simp]
theorem text_mkCharBuf (size : Nat) :
  (mkCharBuf size).text = []
  := text_holding _

@[simp]
theorem text_clear :
  (clearCharBuf buf).text = []
  := text_holding _

theorem isEmpty_iff :
  isEmptyCharBuf buf = true ↔ buf.text = []
  := by
  rw [isEmptyCharBuf, decide_eq_true_iff, ← buf.length_text, List.length_eq_zero_iff]

@[simp]
theorem text_concat (str : List Byte) :
  (concatCharBuf buf str).text = buf.text ++ cstr str
  := text_holding _

@[simp]
theorem text_append {c : Byte} (hc : c ≠ 0) :
  (appendCharBuf buf c).text = buf.text ++ [c]
  := by
  rw [appendCharBuf, text_concat]
  congr 1
  exact cstr_append_zero (s := [c]) (by simpa using hc.symm)

@[simp]
theorem text_dropLast :
  (dropLastCharBuf buf).2.text = buf.text.dropLast
  := by
  rw [dropLastCharBuf]
  split
  case isTrue h =>
    have hnil : buf.text = [] := by
      rw [← List.length_eq_zero_iff, buf.length_text, h]
    rw [hnil, List.dropLast_nil]
  case isFalse => exact text_holding fun h => buf.nonzero (List.dropLast_subset _ h)

/-- What a C function reads from a buffer is its text. -/
@[simp]
theorem mkString_text :
  mkString (fromCharBuf buf) = buf.text
  := by
  obtain ⟨rest, h⟩ := buf.terminated
  rw [mkString, fromCharBuf, h, ← text]
  exact cstr_append_zero buf.nonzero

end CharBuf

end Torgo
