import Manos.Dev.Date
import Manos.Dev.Walk
import Manos.Fmt.Code

/-!
# Reading from devices

The read functions of the devices, as programs over the portal and the memory of the caller's
buffer.  What a read finds in the registers of the hardware, and in the variables that interrupt
handlers change, is given by `Hardware`.
-/

namespace Dev

open Exec

/-! ### Machine types -/

/-- The number of the bits of `size_t` and `ptrdiff_t`. -/
def Platform.width : Platform → ℕ
  | .k70cw => 32
  | .nice => 64

/-- A `size_t` as a `ptrdiff_t`. -/
def ptrdiff (pf : Platform) (n : ℕ) : ℤ := (BitVec.ofNat pf.width n).toInt

/-- The bytes of a value of `n` bytes in memory. -/
def bytesOf (n : ℕ) {w : ℕ} (x : BitVec w) : List Byte :=
  (List.range n).map fun i => (x >>> (8 * i)).setWidth 8

/-! ### The state -/

/-- What a read finds in the machine. -/
structure Hardware where
  /-- the LEDs, `GPIO_PDOR_REG(PTA_BASE_PTR)` -/
  pdor : BitVec 32
  /-- the buttons, `GPIO_PDIR_REG(PTD_BASE_PTR)` -/
  pdirD : BitVec 32
  /-- the buttons, `GPIO_PDIR_REG(PTE_BASE_PTR)` -/
  pdirE : BitVec 32
  /-- the result of a conversion, for each channel of the ADC -/
  adc : ℕ → BitVec 32
  /-- the characters that the uarts will give -/
  getc : ℕ → ℕ → Byte
  /-- the time stamps of the timers -/
  msecs : ℕ → BitVec 64
  /-- what `readDate` has in `msecs` after it read the timer -/
  dateMsecs : BitVec 64
  /-- `svcInterruptCount` -/
  svc : BitVec 64
  /-- `timerInterruptCount` -/
  timer : BitVec 64
  /-- `pdbInterruptCount` -/
  pdb : BitVec 64
  /-- `systickInterruptCount` -/
  systick : BitVec 64
  /-- `pendsvInterruptCount` -/
  pendsv : BitVec 64

/-- The variables that a read changes. -/
structure Reading where
  portal : Portal
  /-- the bytes that were stored, by their index from the start of the caller's buffer -/
  buf : ℕ → Option Byte

/-- `buf[i] = b` -/
def store (i : ℕ) (b : Byte) : Exec Reading Unit :=
  modify fun s => { s with buf := Function.update s.buf i (some b) }

/-- Store the bytes `l` from the index `i` on. -/
def copy : ℕ → List Byte → Exec Reading Unit
  | _, [] => pure ()
  | i, b :: l => do
      store i b
      copy (i + 1) l

/-- `p->offset += n` -/
def addOffset (n : ℕ) : Exec Reading Unit :=
  modify fun s =>
    { s with portal := { s.portal with offset := (s.portal.offset + n) % 2 ^ 32 } }

/-! ### Static namespaces -/

/-- The loop of `readStaticNS` over the entries of a directory, with the index `c` in the buffer. -/
def entriesLoop (ns : List StaticNS) :
    ℕ → Portal → Option NodeInfo → ℕ → ℕ → ℕ → ℕ → Exec Reading ℕ
  | _, _, none, _, _, _, entries => pure entries
  | 0, _, some _, _, _, _, _ => fault .endless
  | k + 1, px, some ni, bytes, c, skip, entries => do
      if bytes ≠ 0 ∧ ni.name.length + 1 ≤ bytes then
        -- for directories offset is treated as an integral dir index
        let px := { px with crumb := ni.crumb }
        if skip ≠ 0 then
          let nix ← getNodeInfoStaticNS px ns .next
          entriesLoop ns k px nix bytes c (skip - 1) entries
        else
          copy c (ni.name ++ [0])
          let nix ← getNodeInfoStaticNS px ns .next
          entriesLoop ns k px nix (bytes - (ni.name.length + 1)) (c + (ni.name.length + 1)) 0
            (entries + 1)
      else return entries

/-- The first `n` bytes of what the field `contents` points to. -/
def Contents.take (n : ℕ) : Contents → Exec Reading (List Byte)
  | .null => fault (.null "contents")
  | .text s => if n ≤ s.length + 1 then pure ((s ++ [0]).take n) else fault (.wild "contents")
  | _ => fault (.wild "contents")

/-- `readStaticNS` -/
def readStaticNS (pf : Platform) (ns : List StaticNS) (size offset : ℕ) : Exec Reading ℤ := do
  if size = 0 then return 0
  let s ← get
  let snsEnt ← entryAt ns s.portal.crumb.selfIdx
  if snsEnt.crumb.isDir then
    let px := clonePortal s.portal default
    let nix ← getNodeInfoStaticNS px ns .down
    let entries ← entriesLoop ns entryBound px nix size 0 offset 0
    addOffset entries
    return entries
  else
    if snsEnt.length = 0 then return 0
    let bytes := if size > snsEnt.length then snsEnt.length else size
    let l ← snsEnt.contents.take bytes
    copy 0 l
    addOffset bytes
    return ptrdiff pf bytes

/-! ### The devices -/

/-- `readRoot` -/
def readRoot (pf : Platform) (size offset : ℕ) : Exec Reading ℤ :=
  readStaticNS pf (Device.root.sns pf) size offset

/-- `ledColorBits` -/
def ledColorBits : List (BitVec 32) := [1 <<< 11, 1 <<< 28, 1 <<< 29, 1 <<< 10]

/-- `FidOrange` -/
def fidOrange : ℕ := 1

/-- `FidBlue` -/
def fidBlue : ℕ := 4

/-- `getLed` -/
def getLed (hw : Hardware) (which : ℕ) : BitVec 32 := hw.pdor &&& ledColorBits.getD which 0

/-- `readLed` -/
def readLed (pf : Platform) (hw : Hardware) (size offset : ℕ) : Exec Reading ℤ := do
  if size = 0 then return 0
  let s ← get
  if s.portal.crumb.isDir then return ← readStaticNS pf (Device.led.sns pf) size offset
  if s.portal.offset ≠ 0 then return 0 -- eof
  let fid := s.portal.crumb.selfIdx
  if fidOrange ≤ fid ∧ fid ≤ fidBlue then
    store 0 ((0x30 + getLed hw (fid - fidOrange)).setWidth 8)
    addOffset 1
    return 1
  else return -1

/-- `FidOne` -/
def fidOne : ℕ := 1

/-- `FidTwo` -/
def fidTwo : ℕ := 2

/-- `FidOneRaw` -/
def fidOneRaw : ℕ := 3

/-- `FidTwoRaw` -/
def fidTwoRaw : ℕ := 4

/-- `getState`, where a button that is up gives a one -/
def getState (hw : Hardware) (which : ℕ) : Byte :=
  if which = 0 then if hw.pdirD &&& 1 = 0 then 0 else 1
  else if hw.pdirE &&& (1 <<< 26) = 0 then 0 else 1

/-- `readSwpb` -/
def readSwpb (pf : Platform) (hw : Hardware) (size offset : ℕ) : Exec Reading ℤ := do
  if size = 0 then return 0
  let s ← get
  if s.portal.crumb.isDir then return ← readStaticNS pf (Device.swpb.sns pf) size offset
  let fid := s.portal.crumb.selfIdx
  -- the files that are not raw fall through with the number of the raw one
  let fid := if fid = fidOne ∨ fid = fidTwo then fid + fidTwo else fid
  if fid = fidOneRaw ∨ fid = fidTwoRaw then
    store 0 (0x30 + getState hw (fid - fidOneRaw))
    addOffset 1
    return 1
  else return -1

/-- The loop of `readUart`, from the index `bytes` on. -/
def getcLoop (getc : ℕ → Byte) : ℕ → ℕ → Exec Reading Unit
  | 0, _ => pure ()
  | k + 1, bytes => do
      store bytes (getc bytes)
      getcLoop getc k (bytes + 1)

/-- `readUart` -/
def readUart (pf : Platform) (hw : Hardware) (size offset : ℕ) : Exec Reading ℤ := do
  if size = 0 then return 0
  let s ← get
  if s.portal.crumb.isDir then return ← readStaticNS pf (Device.uart.sns pf) size offset
  match ← getNodeInfoStaticNS s.portal (Device.uart.sns pf) .self with
  | none => return -1
  | some ni =>
      if ni.length = uartDataFile then
        match ni.contents with
        | .uart i =>
            match (hotpluggedUarts pf)[i]? with
            | none => fault (.wild "uart")
            | some uart =>
                if !uart.getc then return -1
                getcLoop (hw.getc i) size 0
                return ptrdiff pf size
        | _ => fault (.wild "uart")
      else return -1

/-- `readLcd` -/
def readLcd (pf : Platform) (size offset : ℕ) : Exec Reading ℤ := do
  if size = 0 then return 0
  let s ← get
  if s.portal.crumb.isDir then return ← readStaticNS pf (Device.lcd.sns pf) size offset
  return -1

/-- `FidPot` -/
def fidPot : ℕ := 1

/-- `FidTemp` -/
def fidTemp : ℕ := 2

/-- `AdcPot` -/
def adcPot : ℕ := 0x14

/-- `AdcTemp` -/
def adcTemp : ℕ := 0x1a

/-- `readAdc` -/
def readAdc (pf : Platform) (hw : Hardware) (size offset : ℕ) : Exec Reading ℤ := do
  if size < 4 then return 0
  let s ← get
  if s.portal.crumb.isDir then return ← readStaticNS pf (Device.adc.sns pf) size offset
  let fid := s.portal.crumb.selfIdx
  if fid = fidPot ∨ fid = fidTemp then
    copy 0 (bytesOf 4 (hw.adc (if fid = fidPot then adcPot else adcTemp)))
    addOffset 4
    return 4
  else return -1

/-- `readTimer` -/
def readTimer (pf : Platform) (hw : Hardware) (size offset : ℕ) : Exec Reading ℤ := do
  if size = 0 then return 0
  let s ← get
  if s.portal.crumb.isDir then return ← readStaticNS pf (Device.timer.sns pf) size offset
  match ← getNodeInfoStaticNS s.portal (Device.timer.sns pf) .self with
  | none => return -1
  | some ni =>
      match ni.contents with
      | .timer i =>
          match (hotpluggedTimers pf)[i]? with
          | none => fault (.wild "timer")
          | some timer =>
              if timer.name = "k70PDB0" then return -1
              if offset ≥ ni.length then return 0
              let bytes := ni.length - offset
              copy 0 ((bytesOf 8 (hw.msecs i)).drop offset)
              return ptrdiff pf bytes
      | _ => fault (.wild "timer")

/-! ### `devdev` -/

/-- The bytes of a `Date`. -/
def Date.bytes (d : Date) : List Byte :=
  [d.seconds, d.minutes, d.hours, d.day, d.month, d.year].flatMap fun z =>
    bytesOf 4 (BitVec.ofInt 32 z)

/-- `sizeof(Date)` -/
def sizeofDate : ℕ := 24

/-- `readDate` -/
def readDate (hw : Hardware) : Exec Reading Unit := do
  copy 0 (List.replicate sizeofDate 0)
  match secondsToDate (hw.dateMsecs / 1000) with
  | none => fault (.wild "monthDays")
  | some date => copy 0 date.bytes

/-- `INT_MAP_FMT` -/
def intMapFmt : List Byte := text "%s:\t\t\t%lld\n"

/-- `INT_MAP_SIZE` -/
def intMapSize : ℕ := 5 * 21 + 5

/-- `intMap` -/
def intMap (hw : Hardware) : List (Name × BitVec 64) :=
  [(text "SVC", hw.svc), (text "TIMER", hw.timer), (text "PDB", hw.pdb),
    (text "SYSTICK", hw.systick), (text "PENDSV", hw.pendsv)]

/--
The call of `fmtSnprintf` for a counter, with the memory from `c` on.  The formatter takes the
lower half of the counter.
-/
def fmtCounter (c : ℕ → Byte) (n : ℕ) (name : Name) (counter : BitVec 64) :
    Outcome Fmt.Frame ℕ :=
  Fmt.fmtVsnprintf (intMapFmt.length + 2) intMapFmt
    (Fmt.start c n [.string (name ++ [0]), .number (counter.setWidth 32)])

/-- The loop of `readInterrupts`; the values are the buffer and the number of its bytes. -/
def interruptsLoop (size : ℕ) :
    List (Name × BitVec 64) → (ℕ → Byte) → ℕ → Exec Reading ((ℕ → Byte) × ℕ)
  | [], buf, bytes => pure (buf, bytes)
  | (name, counter) :: rest, buf, bytes =>
      match fmtCounter (fun j => buf (bytes + j)) (size - bytes) name counter with
      | .stop f _ => fault f
      | .done nbytes q =>
          let buf := fun j => if j < bytes then buf j else q.buf (j - bytes)
          if nbytes > 0 then interruptsLoop size rest buf (bytes + nbytes)
          else pure (buf, bytes)

/-- `readInterrupts`, into an array that is longer than `size` by one -/
def readInterrupts (hw : Hardware) (buf : ℕ → Byte) (size : ℕ) :
    Exec Reading ((ℕ → Byte) × ℕ) := do
  let (buf, bytes) ← interruptsLoop size (intMap hw) buf 0
  if bytes < size + 1 then return (Function.update buf bytes 0, bytes)
  else fault (.wild "fileInfo")

/-- `readDevDev`, with what is in `fileInfo` at the start -/
def readDevDev (pf : Platform) (hw : Hardware) (fileInfo : ℕ → Byte) (size offset : ℕ) :
    Exec Reading ℤ := do
  if size = 0 then return 0
  let s ← get
  if s.portal.crumb.isDir then return ← readStaticNS pf (Device.dev.sns pf) size offset
  let fid := s.portal.crumb.selfIdx
  if fid = fidDate then
    if size ≥ sizeofDate then
      readDate hw
      return sizeofDate
    else return 0
  else if fid = fidInterrupts then
    let (fileInfo, bytesRead) ← readInterrupts hw fileInfo intMapSize
    if offset < bytesRead then
      let newSize := if bytesRead - offset > size then size else bytesRead - offset
      copy 0 ((List.range newSize).map fun j => fileInfo (offset + j))
      addOffset newSize
      return ptrdiff pf newSize
    else return 0
  else return -1

/-- The read functions of the devices. -/
def Device.read (pf : Platform) (d : Device) (hw : Hardware) (fileInfo : ℕ → Byte)
    (size offset : ℕ) : Exec Reading ℤ :=
  match d with
  | .root => readRoot pf size offset
  | .led => readLed pf hw size offset
  | .swpb => readSwpb pf hw size offset
  | .uart => readUart pf hw size offset
  | .lcd => readLcd pf size offset
  | .adc => readAdc pf hw size offset
  | .timer => readTimer pf hw size offset
  | .dev => readDevDev pf hw fileInfo size offset

end Dev
