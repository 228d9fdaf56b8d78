import Manos.Lib.Exec
import Manos.Torgo.CharBuf

/-!
# The shell parser

The functions of `parser.c`, as programs over the state `Parser`.  The links of the input
chain are kept in a store, so that a link that is read after it was freed is a fault.  Every
allocation is taken to succeed.  Loops take a bound on the number of their turns, and a loop
that does not end within it is a fault; the functions are shown to return for every bound
that is large enough.
-/

set_option linter.style.nameCheck false

namespace Torgo

open Exec

/-- `ParserState` -/
inductive ParserState where
  | ready
  | word
  | quotation
  | escapeInQuot
  | escapeInWord
  | operator
  | complete
deriving DecidableEq, Repr

/-- `ParseResult` -/
inductive ParseResult where
  | parsedCommand (length : Nat) (tokens : List (List Byte))
  | parseIncomplete
deriving DecidableEq

/-- `InputChain`; the links are named by numbers. -/
structure InputChain where
  /-- the string, without the zero after it -/
  input : List Byte
  /-- the next link, if there is one -/
  next : Option Nat

/-- `Parser`, with the links of the input chain that were allocated and not freed. -/
structure Parser where
  /-- the parsed tokens, the last one first -/
  tokens : List (List Byte)
  /-- the token that is built up -/
  token : CharBuf
  /-- the first link of the chain -/
  inputChain : Option Nat
  /-- the link after which input is added -/
  last : Option Nat
  /-- the link whose string is read, and the offset in it -/
  input : Option (Nat × Nat)
  state : ParserState
  /-- the links by their names -/
  chains : Nat → Option InputChain
  /-- the name of the link that is allocated next -/
  fresh : Nat

/-! ### Characters -/

/-- `' '` and `'\t'` -/
def isBlank (c : Byte) : Bool :=
  c = 0x20 ∨ c = 0x09

/-- `'\r'`, `'\n'` and `';'` -/
def isOperator (c : Byte) : Bool :=
  c = 0x0d ∨ c = 0x0a ∨ c = 0x3b

/-- The quotation mark. -/
def quotMark : Byte := 0x22

/-- The backslash. -/
def backslash : Byte := 0x5c

/-- The character that is meant by `c` after a backslash. -/
def escaped (c : Byte) : Byte :=
  if c = 0x61 then 0x07 -- 'a'
  else if c = 0x62 then 0x08 -- 'b'
  else if c = 0x66 then 0x0c -- 'f'
  else if c = 0x6e then 0x0a -- 'n'
  else if c = 0x72 then 0x0d -- 'r'
  else if c = 0x74 then 0x09 -- 't'
  else if c = 0x76 then 0x0b -- 'v'
  else c

/-! ### Parse results -/

/-- The loop of `mkParsedCommand`: the copied tokens and their number. -/
def copyTokens : List (List Byte) → Nat × List (List Byte) → Nat × List (List Byte)
  | [], done => done
  | tok :: toks, done => copyTokens toks (done.1 + 1, mkString tok :: done.2)

/-- `mkParsedCommand` -/
def mkParsedCommand (tokens : List (List Byte)) : ParseResult :=
  .parsedCommand (copyTokens tokens (0, [])).1 (copyTokens tokens (0, [])).2

/-! ### The parser -/

/-- `mkParser` -/
def mkParser : Parser where
  tokens := []
  token := mkCharBuf 32
  inputChain := none
  last := none
  input := none
  state := .ready
  chains := fun _ => none
  fresh := 0

/-- The link that `x` points to. -/
def link (x : Option Nat) : Exec Parser (Nat × InputChain) := do
  let p ← get
  match x with
  | none => fault (.null "InputChain")
  | some a =>
      match p.chains a with
      | none => fault (.wild "InputChain")
      | some c => pure (a, c)

/-- `*parser->input`: zero at the end of the string. -/
def peek : Exec Parser Byte := do
  let p ← get
  match p.input with
  | none => fault (.null "input")
  | some (a, i) =>
      match p.chains a with
      | none => fault (.wild "input")
      | some c => if i ≤ c.input.length then pure (c.input.getD i 0) else fault (.wild "input")

/-- `freeInputChain` -/
def freeInputChain (a : Nat) : Exec Parser Unit :=
  modify fun p => { p with chains := Function.update p.chains a none }

/-- `addInputParser` -/
def addInputParser (input : List Byte) : Exec Parser Unit := do
  let p ← get
  let a := p.fresh
  modify fun p =>
    { p with chains := Function.update p.chains a (some ⟨mkString input, none⟩), fresh := a + 1 }
  match p.last with
  | some z =>
      let (z, c) ← link (some z)
      modify fun p =>
        { p with chains := Function.update p.chains z (some { c with next := some a }) }
  | none => modify fun p => { p with inputChain := some a, input := some (a, 0) }
  modify fun p => { p with last := some a }

/-- `advanceInputParser`, with a bound on the depth of its calls. -/
def advanceInputParser : Nat → Exec Parser Unit
  | 0 => fault .endless
  | n + 1 => do
    let c ← peek
    if c ≠ 0 then
      modify fun p => { p with input := p.input.map fun (a, i) => (a, i + 1) }
      let c ← peek
      if c = 0 then advanceInputParser n
    else
      let p ← get
      let (a, c) ← link p.inputChain
      match c.next with
      | some b =>
          let (b, _) ← link (some b)
          modify fun p => { p with inputChain := some b, input := some (b, 0) }
          freeInputChain a
      | none => modify fun p => { p with last := none }

/-- `advanceInputParser` calls itself at most once. -/
def advance : Exec Parser Unit :=
  advanceInputParser 2

/-- Set the state of the parser. -/
def setState (s : ParserState) : Exec Parser Unit :=
  modify fun p => { p with state := s }

/-- Add a character to the token that is built up. -/
def appendToken (c : Byte) : Exec Parser Unit :=
  modify fun p => { p with token := appendCharBuf p.token c }

/-- Put the token that is built up, if it is not empty, on the list of parsed tokens. -/
def pushToken : Exec Parser Unit := do
  let p ← get
  when (¬ isEmptyCharBuf p.token) do
    modify fun p => { p with tokens := mkString (fromCharBuf p.token) :: p.tokens }
    modify fun p => { p with token := clearCharBuf p.token }

/-- One turn of the loop of `parseInputParser`. -/
def parseTurn : Exec Parser Unit := do
  let p ← get
  match p.state with
  | .complete => pure ()
  | .ready =>
      pushToken
      let c ← peek
      if isBlank c then advance
      else if isOperator c then setState .operator
      else setState .word
  | .word =>
      let c ← peek
      if c = quotMark then
        advance
        setState .quotation
      else if c = backslash then
        advance
        setState .escapeInWord
      else if isBlank c ∨ isOperator c then setState .ready
      else
        appendToken c
        advance
  | .quotation =>
      let c ← peek
      if c = backslash then
        advance
        setState .escapeInQuot
      else if c = quotMark then
        advance
        setState .word
      else
        appendToken c
        advance
  | .escapeInWord =>
      let c ← peek
      appendToken (escaped c)
      advance
      setState .word
  | .escapeInQuot =>
      let c ← peek
      appendToken (escaped c)
      advance
      setState .quotation
  | .operator =>
      advance
      setState .complete

/-- The loop of `parseInputParser`. -/
def parseLoop : Nat → Exec Parser Unit
  | 0 => fault .endless
  | n + 1 => do
    let c ← peek
    let p ← get
    if c ≠ 0 ∧ p.state ≠ .complete then
      parseTurn
      parseLoop n

/-- `parseInputParser` -/
def parseInputParser (n : Nat) : Exec Parser ParseResult := do
  parseLoop n
  let p ← get
  if p.state ≠ .complete then pure .parseIncomplete
  else
    modify fun p =>
      { p with tokens := [], token := clearCharBuf p.token, state := .ready }
    pure (mkParsedCommand p.tokens)

/-- `hasUnparsedInputParser` -/
def hasUnparsedInputParser : Exec Parser Bool := do
  let p ← get
  match p.input with
  | none => pure p.last.isSome
  | some _ =>
      let c ← peek
      pure (c ≠ 0 || p.last.isSome)

/-! ### The use of the parser -/

/-- Parse while there is unparsed input, with the results in their order. -/
def drain : Nat → Exec Parser (List ParseResult)
  | 0 => fault .endless
  | n + 1 => do
    let more ← hasUnparsedInputParser
    if more then
      let r ← parseInputParser n
      let rs ← drain n
      pure (r :: rs)
    else pure []

/-- Add the chunks `cs` to the input. -/
def addChunks : List (List Byte) → Exec Parser Unit
  | [] => pure ()
  | c :: cs => do
    addInputParser c
    addChunks cs

/-- Feed the parser in rounds.  In each of them some chunks are added, and then the parser is
called while it has unparsed input. -/
def feed (n : Nat) : List (List (List Byte)) → Exec Parser (List ParseResult)
  | [] => pure []
  | r :: rs => do
    addChunks r
    let now ← drain n
    let later ← feed n rs
    pure (now ++ later)

end Torgo
