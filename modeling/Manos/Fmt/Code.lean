import Mathlib.Algebra.Group.Int.Defs
import Mathlib.Algebra.Group.Nat.Defs
import Manos.Lib.CStr
import Manos.Lib.Exec

/-!
# Formatting into a buffer

The functions of `fmt.c`, as programs over the state `Frame`.  A store outside the buffer and a
load outside `intBuf` are faults.  The format and the strings are memories of which the C
string at the start is read, and do not overlap the buffer.
-/

set_option linter.style.nameCheck false

namespace Fmt

open Exec

/-- An argument of the variable part of the argument list. -/
inductive Arg where
  | number (i : BitVec 32)
  | string (mem : List Byte)

/-- The variables of `fmtVsnprintfInternal` that its parts change. -/
structure Frame where
  /-- the memory from `buf` on -/
  buf : Nat → Byte
  /-- the number of bytes of the buffer -/
  size : Nat
  /-- `p`, as an index into the buffer -/
  p : Nat
  /-- the remaining space -/
  n : Nat
  intBuf : List Byte
  ap : List Arg

/-! ### Numbers -/

/-- `size_t` and `unsigned` subtraction. -/
def subWord (a b : Nat) : Nat :=
  (a + 2 ^ 32 - b) % 2 ^ 32

/-- `intToHexLC` -/
def intToHexLC : List Byte :=
  [0x30, 0x31, 0x32, 0x33, 0x34, 0x35, 0x36, 0x37, 0x38, 0x39, 0x61, 0x62, 0x63, 0x64, 0x65, 0x66]

/-- The character of a digit. -/
def digitChar (hex : Bool) (r : Nat) : Byte :=
  if hex then intToHexLC.getD r 0 else .ofNat 8 r + 0x30

/-- The base of a number. -/
def base (hex : Bool) : Nat :=
  if hex then 16 else 10

/-- The loop of `uintToStr`, with the number `x` of the bytes that are left. -/
def uintLoop (hex : Bool) : Nat → Nat → List Byte → Nat × List Byte
  | 0, _, buf => (0, buf)
  | x + 1, i, buf =>
      if i = 0 then (x + 1, buf)
      else uintLoop hex x (i / base hex) (buf.set x (digitChar hex (i % base hex)))

/-- `uintToStr` -/
def uintToStr (buf : List Byte) (n : Nat) (hex : Bool) (i : Nat) : Nat × List Byte :=
  if n = 0 then (0, buf)
  else if i = 0 then (1, buf.set (n - 1) 0x30)
  else (n - (uintLoop hex n i buf).1, (uintLoop hex n i buf).2)

/-- `INTBUF_SIZE` -/
def intBufSize : Nat := 20

/-! ### Reading the format -/

/-- The character `'%'`. -/
def percent : Byte := 0x25

/-- The characters from `'0'` to `'9'`. -/
def isDigit (c : Byte) : Bool :=
  0x30 ≤ c.toNat ∧ c.toNat ≤ 0x39

/-- `isspace` -/
def isSpace (c : Byte) : Bool :=
  c = 0x20 ∨ (0x09 ≤ c.toNat ∧ c.toNat ≤ 0x0d)

/-- The value of the digits at the start of a text, after digits with the value `v`. -/
def digitsValue : Nat → List Byte → Nat
  | v, [] => v
  | v, c :: cs => if isDigit c then digitsValue (10 * v + (c.toNat - 0x30)) cs else v

/-- `atoi`: blanks, a sign and digits; what does not fit is the largest or the smallest `int`. -/
def atoi (c : List Byte) : Int :=
  let c := c.dropWhile isSpace
  if c.head? = some 0x2d then max (-2 ^ 31) (-(digitsValue 0 c.tail : Int))
  else if c.head? = some 0x2b then min (2 ^ 31 - 1) (digitsValue 0 c.tail : Int)
  else min (2 ^ 31 - 1) (digitsValue 0 c : Int)

/-- The conversion of an `int` to `unsigned`. -/
def toUnsigned (z : Int) : Nat :=
  (z % 2 ^ 32).toNat

/-- The conversions. -/
inductive Conv where
  | number (hex : Bool)
  | string
deriving DecidableEq

/-- What the text after a `'%'` asks for. -/
structure Hole where
  /-- the flag `'0'` -/
  zero : Bool
  width : Nat
  precision : Option Nat
  conv : Option Conv
  /-- the format from the type on -/
  type : List Byte
  /-- the format after the type -/
  rest : List Byte

/-- Read the flag, the width, the precision and the type after a `'%'`. -/
def parseHole (x : List Byte) : Hole :=
  let zero : Bool := x.head? = some 0x30
  let x := if zero then x.tail else x
  let width := toUnsigned (atoi x)
  let x := x.dropWhile isDigit
  let hasPrecision : Bool := x.head? = some 0x2e
  let precision := if hasPrecision then some (toUnsigned (atoi x.tail)) else none
  let c := if hasPrecision then x.tail.dropWhile isDigit else x
  let x := c.dropWhile (· = 0x6c) -- 'l'
  if x.head? = some 0x64 ∨ x.head? = some 0x75 then -- 'd', 'u'
    ⟨zero, width, precision, some (.number false), c, x.tail⟩
  else if x.head? = some 0x78 then -- 'x'
    ⟨zero, width, precision, some (.number true), c, x.tail⟩
  else if x.head? = some 0x73 then -- 's'
    ⟨zero, width, precision, some .string, c, x.tail⟩
  else
    ⟨zero, width, precision, none, c, c⟩

/-! ### Writing -/

/-- `*p = b` -/
def store (b : Byte) : Exec Frame Unit := do
  let s ← get
  if s.p < s.size then modify fun s => { s with buf := Function.update s.buf s.p b }
  else fault (.wild "buf")

/-- `*p++ = b` -/
def put (b : Byte) : Exec Frame Unit := do
  store b
  modify fun s => { s with p := s.p + 1 }

/-- `n -= k` -/
def takeSpace (k : Nat) : Exec Frame Unit :=
  modify fun s => { s with n := subWord s.n k }

/-- Store the bytes `l` from `p` on, and advance `p` over them. -/
def putAll : List Byte → Exec Frame Unit
  | [] => pure ()
  | b :: l => do
    put b
    putAll l

/-- The loop that copies the format up to a `'%'`; the value is the rest of the format. -/
def literals (useN : Bool) : List Byte → Exec Frame (List Byte)
  | [] => pure []
  | b :: x => do
    let s ← get
    if (s.n ≠ 0 ∨ useN = false) ∧ b ≠ percent then
      put b
      takeSpace 1
      literals useN x
    else pure (b :: x)

/-- `va_arg(ap, uint32_t)` -/
def vaNumber : Exec Frame Nat := do
  let s ← get
  match s.ap with
  | .number i :: ap =>
      modify fun s => { s with ap := ap }
      pure i.toNat
  | _ => fault (.wild "ap")

/-- `va_arg(ap, char*)` -/
def vaString : Exec Frame (List Byte) := do
  let s ← get
  match s.ap with
  | .string mem :: ap =>
      modify fun s => { s with ap := ap }
      pure (cstr mem)
  | _ => fault (.wild "ap")

/-- `memcpy(p, intBuf + INTBUF_SIZE - bytes, bytes)` and `p += bytes` -/
def copyIntBuf (bytes : Nat) : Exec Frame Unit := do
  let s ← get
  if bytes ≤ intBufSize then putAll ((s.intBuf.drop (intBufSize - bytes)).take bytes)
  else fault (.wild "intBuf")

/-- `if (useN && bytes > n) bytes = n` -/
def clip (useN : Bool) (bytes n : Nat) : Nat :=
  if useN ∧ bytes > n then n else bytes

/-- The cases `'d'`, `'u'` and `'x'`. -/
def number (useN hex : Bool) (width : Nat) : Exec Frame Unit := do
  let i ← vaNumber
  let s ← get
  modify fun s => { s with intBuf := (uintToStr s.intBuf intBufSize hex i).2 }
  let bytes := clip useN (max (uintToStr s.intBuf intBufSize hex i).1 width) s.n
  copyIntBuf bytes
  takeSpace bytes

/-- The loop that pads a string. -/
def pad (useN : Bool) : Nat → Exec Frame Unit
  | 0 => pure ()
  | width + 1 => do
    let s ← get
    if s.n ≠ 0 ∨ useN = false then
      put 0x20
      takeSpace 1
      pad useN width

/-- `if (hasPrecision && precision < bytes) bytes = precision` -/
def Hole.limit (h : Hole) (bytes : Nat) : Nat :=
  match h.precision with
  | some precision => if precision < bytes then precision else bytes
  | none => bytes

/-- The case `'s'`; the value is the format after it. -/
def string (useN : Bool) (h : Hole) : Exec Frame (List Byte) := do
  let s ← vaString
  let bytes := h.limit s.length
  when (h.width > bytes) (pad useN (h.width - bytes))
  let st ← get
  if useN ∧ st.n = 0 then pure h.type
  else
    let bytes := clip useN bytes st.n
    putAll (s.take bytes)
    takeSpace bytes
    pure h.rest

/-- What is done at the text `x` after a `'%'`; the value is the format after it. -/
def hole (useN : Bool) (x : List Byte) : Exec Frame (List Byte) := do
  let h := parseHole x
  when h.zero do
    modify fun s =>
      { s with intBuf := .replicate intBufSize 0x30 ++ s.intBuf.drop intBufSize }
  match h.conv with
  | some (.number hex) =>
      number useN hex h.width
      pure h.rest
  | some .string => string useN h
  | none => pure h.rest

/-- What is done at the text `x` at which the copying loop ended. -/
def directive (useN : Bool) (x : List Byte) : Exec Frame (List Byte) :=
  match x with
  | [] => pure []
  | b :: x =>
      if b = percent then
        if x.head? = some percent then do
          put percent
          takeSpace 1
          pure x.tail
        else hole useN x
      else pure (b :: x)

/-- The loop of `fmtVsnprintfInternal`, with a bound on its turns. -/
def fmtLoop (useN : Bool) : Nat → List Byte → Exec Frame Unit
  | 0, _ => fault .endless
  | k + 1, c => do
    let s ← get
    if s.n ≠ 0 ∧ c ≠ [] then
      let x ← literals useN c
      let c ← directive useN x
      fmtLoop useN k c
    else pure ()

/-- `fmtVsnprintfInternal` -/
def fmtVsnprintfInternal (useN : Bool) (k : Nat) (fmt : List Byte) : Exec Frame Nat := do
  fmtLoop useN k (cstr fmt)
  store 0
  let s ← get
  pure s.p

/-- `fmtVsnprintf` -/
def fmtVsnprintf (k : Nat) (fmt : List Byte) : Exec Frame Nat :=
  fmtVsnprintfInternal true k fmt

/-- `fmtSnprintf` -/
def fmtSnprintf (k : Nat) (fmt : List Byte) : Exec Frame Nat :=
  fmtVsnprintf k fmt

/-- `strlen(buf)` -/
def strlen : Exec Frame Nat := do
  let s ← get
  match (List.range s.size).find? fun i => s.buf i = 0 with
  | some n => pure n
  | none => fault (.wild "buf")

/-- `fmtSprintf` -/
def fmtSprintf (k : Nat) (fmt : List Byte) : Exec Frame Nat := do
  let n ← strlen
  modify fun s => { s with n := n }
  fmtVsnprintfInternal false k fmt

/-- At the start of `fmtVsnprintfInternal`, with a buffer of `n` bytes. -/
def start (buf : Nat → Byte) (n : Nat) (ap : List Arg) : Frame :=
  ⟨buf, n, 0, n, .replicate (intBufSize + 1) 0, ap⟩

end Fmt
