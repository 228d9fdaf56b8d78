import Manos.Dev.Lcd
import Manos.Dev.Read
import Manos.Dev.Uart
import Manos.Lib.Strtol

/-!
# Writing to devices

The write functions of the devices, as programs over the variables of the devices.  The caller's
buffer is a list of bytes; a load outside it is a fault, and so is a store outside a local array.
The offset of a write is not used by any device.
-/

namespace Dev

open Exec

/-! ### The state -/

/-- An alarm of a timer, without its links. -/
structure AlarmChain where
  wakeTime : BitVec 64
  pid : ℤ

/-- The variables of the devices that a write may change. -/
structure Machine where
  /-- `GPIO_PSOR_REG(PTA_BASE_PTR)` -/
  psor : BitVec 32
  /-- `GPIO_PCOR_REG(PTA_BASE_PTR)` -/
  pcor : BitVec 32
  /-- the screen, on the platform that has it -/
  lcd : Lcd
  /-- the uart of the K70 -/
  uart : K70Uart
  /-- the characters that were written by `putchar` -/
  stdout : List Byte
  /-- `uart->console`, of the uart of the platform -/
  console : Bool
  /-- `timer->timestamp.msecs` -/
  msecs : ℕ → BitVec 64
  /-- `timer->alarms` -/
  alarms : ℕ → List AlarmChain

/-- What a write finds besides. -/
structure Context where
  /-- whether a pixel of a character is set -/
  profont : ℕ → ℕ → ℕ → Bool
  /-- the interrupts of the uart before each character, with the status and what is received -/
  interrupts : ℕ → List (BitVec 32 × Byte)
  /-- whether `syskmalloc0` gives memory -/
  grants : Bool
  /-- `systime` -/
  systime : BitVec 64
  /-- `rp->pid`, if there is `rp`, or else `0` -/
  pid : ℤ
  /-- what is in `newBuf` at the start -/
  newBuf : ℕ → Byte
  /-- whether `sysopen` gives a descriptor -/
  opens : Bool

/-- `buf[i]` -/
def load {σ : Type} (buf : List Byte) (i : ℕ) : Exec σ Byte :=
  match buf[i]? with
  | some b => pure b
  | none => fault (.wild "buf")

/-! ### Characters -/

/-- A program on the screen. -/
def onLcd {α : Type} (x : Exec Lcd α) : Exec Machine α :=
  onPart Machine.lcd (fun lcd m => { m with lcd := lcd }) x

/-- A program on the uart of the K70. -/
def onUart {α : Type} (x : Exec K70Uart α) : Exec Machine α :=
  onPart Machine.uart (fun uart m => { m with uart := uart }) x

/-- The interrupts of the uart that come before a character. -/
def interruptLoop : List (BitVec 32 × Byte) → Exec K70Uart Unit
  | [] => pure ()
  | (status, c) :: l => do
      let _ ← k70UartInterrupt status c true
      interruptLoop l

/-- `niceUartPutc` -/
def niceUartPutc (c : Byte) : Exec Machine Unit :=
  modify fun m => { m with stdout := m.stdout ++ [c] }

/-- `uart->hw->putc` of the uart of the platform, for the character with the number `i` -/
def uartPutc (pf : Platform) (ctx : Context) (i : ℕ) (c : Byte) : Exec Machine Unit :=
  match pf with
  | .k70cw => onUart do
      interruptLoop (ctx.interrupts i)
      k70UartPutc c
  | .nice => niceUartPutc c

/-- `lcdScreen->hw->putc` -/
def lcdPutc (ctx : Context) (c : Byte) : Exec Machine Unit :=
  onLcd (k70LcdPutc ctx.profont c.toNat)

/-- `UARTPUTC`, with the console that `main` sets up -/
def consolePutc (pf : Platform) (ctx : Context) (c : Byte) : Exec Machine Unit :=
  match pf with
  | .k70cw => lcdPutc ctx c
  | .nice => niceUartPutc c

/--
The loops over the buffer, from the index `i` on, which put each character, and put a return
before a line feed if `crlf` holds.
-/
def putsLoop (putc : ℕ → Byte → Exec Machine Unit) (crlf : Bool) (buf : List Byte) :
    ℕ → ℕ → Exec Machine Unit
  | 0, _ => pure ()
  | k + 1, i => do
      let c ← load buf i
      when (crlf ∧ c = 0x0a) (putc (2 * i) 0x0d)
      putc (2 * i + 1) c
      putsLoop putc crlf buf k (i + 1)

/-- `sysnputs` -/
def sysnputs (pf : Platform) (ctx : Context) (s : List Byte) (n : ℕ) : Exec Machine Unit :=
  putsLoop (fun _ => consolePutc pf ctx) true s n 0

/-! ### The devices -/

/-- `writeRoot` -/
def writeRoot : Exec Machine ℤ := pure (-1)

/-- `setLed` -/
def setLed (which : ℕ) (on : Bool) : Exec Machine Unit :=
  modify fun m =>
    if on then { m with pcor := ledColorBits.getD which 0 }
    else { m with psor := ledColorBits.getD which 0 }

/-- `writeLed` -/
def writeLed (p : Portal) (buf : List Byte) : Exec Machine ℤ := do
  if buf.length = 0 then return 0
  let c ← load buf 0
  if ¬ (c = 0x30 ∨ c = 0x31) then return 0
  let fid := p.crumb.selfIdx
  if fidOrange ≤ fid ∧ fid ≤ fidBlue then
    setLed (fid - fidOrange) (c = 0x31)
    return 1
  else return 0

/-- `writeSwpb` -/
def writeSwpb : Exec Machine ℤ := pure (-1)

/-- `writeUart` -/
def writeUart (pf : Platform) (ctx : Context) (p : Portal) (buf : List Byte) :
    Exec Machine ℤ := do
  if buf.length = 0 then return 0
  if p.crumb.isDir then return -1
  match ← getNodeInfoStaticNS p (Device.uart.sns pf) .self with
  | none => return -1
  | some ni =>
      if ni.length = uartDataFile then
        match ni.contents with
        | .uart i =>
            match (hotpluggedUarts pf)[i]? with
            | none => fault (.wild "uart")
            | some uart =>
                if !uart.putc then return -1
                let m ← get
                putsLoop (uartPutc pf ctx) m.console buf buf.length 0
                return ptrdiff pf buf.length
        | _ => fault (.wild "uart")
      else return -1

/-- `FidClear` -/
def fidClear : ℕ := 1

/-- `FidFg` -/
def fidFg : ℕ := 2

/-- `FidBg` -/
def fidBg : ℕ := 3

/-- `FidBlit` -/
def fidBlit : ℕ := 4

/-- `FidCons` -/
def fidCons : ℕ := 5

/-- The part of `writeLcd` for the files of the colors. -/
def writeColor (pf : Platform) (fid : ℕ) (buf : List Byte) : Exec Machine ℤ :=
  match Strtol.strtol pf.width 0 buf with
  | none => fault (.wild "buf")
  | some (color, c) => do
      let bytes := buf.length - c.length
      if bytes = 0 ∨ bytes > buf.length then return -1
      onLcd (modify fun lcd =>
        if fid = fidFg then { lcd with fg := .ofInt 32 color } else { lcd with bg := .ofInt 32 color })
      return ptrdiff pf bytes

/-- The part of `writeLcd` for the file `clear`. -/
def writeClear (buf : List Byte) : Exec Machine ℤ := do
  let c ← load buf 0
  if c = 0x31 then
    onLcd k70LcdClear
    return 1
  else return 0

/-- Whether there is `lcdScreen`. -/
def Platform.lcdScreen : Platform → Bool
  | .k70cw => true
  | .nice => false

/-- `writeLcd` -/
def writeLcd (pf : Platform) (ctx : Context) (p : Portal) (buf : List Byte) :
    Exec Machine ℤ := do
  if buf.length = 0 then return 0
  if !pf.lcdScreen || p.crumb.isDir then return -1
  match ← getNodeInfoStaticNS p (Device.lcd.sns pf) .self with
  | none => return -1
  | some _ =>
      let fid := p.crumb.selfIdx
      if fid = fidFg ∨ fid = fidBg then writeColor pf fid buf
      else if fid = fidClear then writeClear buf
      else if fid = fidBlit then
        onLcd (k70LcdBlit buf)
        let m ← get
        return ptrdiff pf m.lcd.fbSize
      else if fid = fidCons then
        putsLoop (fun _ => lcdPutc ctx) false buf buf.length 0
        return ptrdiff pf buf.length
      else return -1

/-- `writeAdc` -/
def writeAdc : Exec Machine ℤ := pure (-1)

/-- The part of `writeTimer` for the timer of the alarms. -/
def writeAlarm (pf : Platform) (ctx : Context) (i : ℕ) (buf : List Byte) : Exec Machine ℤ :=
  let n := if buf.length > 20 then 20 else buf.length
  let duration := buf.take n ++ List.replicate (21 - n) 0
  if !ctx.grants then fault (.null "alarm")
  else
    match Strtol.strtol pf.width 10 duration with
    | none => fault (.wild "duration")
    | some (z, _) => do
        let alarm := ⟨ctx.systime + .ofInt 64 (int z), ctx.pid⟩
        modify fun m => { m with alarms := Function.update m.alarms i (m.alarms i ++ [alarm]) }
        return 21

/-- A value of 8 bytes in memory. -/
def ofBytes (mem : ℕ → Byte) : BitVec 64 :=
  mem 7 ++ mem 6 ++ mem 5 ++ mem 4 ++ mem 3 ++ mem 2 ++ mem 1 ++ mem 0

/-- The part of `writeTimer` for the other timers. -/
def writeMsecs (pf : Platform) (ctx : Context) (i : ℕ) (buf : List Byte) : Exec Machine ℤ :=
  let bytes := if buf.length > 8 then 8 else buf.length
  if (8 - bytes) + buf.length ≤ 8 then do
    let newBuf := fun j => if j < 8 - bytes then ctx.newBuf j else buf.getD (j - (8 - bytes)) 0
    modify fun m => { m with msecs := Function.update m.msecs i (ofBytes newBuf) }
    return ptrdiff pf bytes
  else fault (.wild "newBuf")

/-- `writeTimer` -/
def writeTimer (pf : Platform) (ctx : Context) (p : Portal) (buf : List Byte) :
    Exec Machine ℤ := do
  if buf.length = 0 then return 0
  if p.crumb.isDir then return -1
  match ← getNodeInfoStaticNS p (Device.timer.sns pf) .self with
  | none => return -1
  | some ni =>
      match ni.contents with
      | .timer i =>
          match (hotpluggedTimers pf)[i]? with
          | none => fault (.wild "timer")
          | some timer =>
              if timer.name = "k70PDB0" then writeAlarm pf ctx i buf
              else writeMsecs pf ctx i buf
      | _ => fault (.wild "timer")

/-! ### `devdev` -/

/--
The loop of `writeDate`, with the text from `c` on: the numbers that it reads, and the text after
them.
-/
def partsLoop (pf : Platform) : ℕ → List Byte → Option (List ℤ × List Byte)
  | 0, c => some ([], c)
  | k + 1, c => do
      let (z, e) ← Strtol.strtol pf.width 10 c
      if e.length = c.length then return ([int z], c)
      let (parts, rest) ← partsLoop pf k e
      return (int z :: parts, rest)

/-- The date that `writeDate` reads, with the text after it. -/
def dateOf (pf : Platform) (buf : List Byte) : Option (Date × List Byte) := do
  let (parts, c) ← partsLoop pf 6 buf
  let month := parts.getD 1 0
  let day := parts.getD 2 0
  return ({
    year := parts.getD 0 0
    month := if month ≠ 0 then int (month - 1) else month
    day := if day ≠ 0 then int (day - 1) else day
    hours := parts.getD 3 0
    minutes := parts.getD 4 0
    seconds := parts.getD 5 0 }, c)

/-- A portal at `/dev/timer/k70Timer`. -/
def timerPortal : Portal :=
  { mkPortal Device.timer.index with
    crumb := ⟨crumbIsFile ||| crumbIsStatic, mkStaticNSFid 0 1⟩ }

/-- The part of `writeDate` that sets the timer, if the platform has it. -/
def setTimer (pf : Platform) (ctx : Context) (d : Date) : Exec Machine ℤ :=
  match pf with
  | .k70cw =>
      match dateToSeconds d with
      | none => fault (.wild "monthDays")
      | some seconds =>
          if ctx.opens then writeTimer pf ctx timerPortal (bytesOf 8 (seconds * 1000))
          else pure (-1)
  | .nice => pure 0

/-- `writeDate` -/
def writeDate (pf : Platform) (ctx : Context) (buf : List Byte) : Exec Machine ℤ :=
  match dateOf pf buf with
  | none => fault (.wild "buf")
  | some (d, c) => if buf.length - c.length > buf.length then pure 0 else setTimer pf ctx d

/-- `writeDevDev` -/
def writeDevDev (pf : Platform) (ctx : Context) (p : Portal) (buf : List Byte) :
    Exec Machine ℤ := do
  if buf.length = 0 then return 0
  if p.crumb.isDir then return -1
  let fid := p.crumb.selfIdx
  if fid = fidDate then writeDate pf ctx buf
  else if fid = fidKPrint then
    sysnputs pf ctx buf buf.length
    return ptrdiff pf buf.length
  else return -1

/-- The write functions of the devices. -/
def Device.write (pf : Platform) (d : Device) (ctx : Context) (p : Portal) (buf : List Byte) :
    Exec Machine ℤ :=
  match d with
  | .root => writeRoot
  | .led => writeLed p buf
  | .swpb => writeSwpb
  | .uart => writeUart pf ctx p buf
  | .lcd => writeLcd pf ctx p buf
  | .adc => writeAdc
  | .timer => writeTimer pf ctx p buf
  | .dev => writeDevDev pf ctx p buf

end Dev
