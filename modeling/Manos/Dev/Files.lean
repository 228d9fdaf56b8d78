import Manos.Dev.Write

/-!
# Files of a process

`mkPath`, and the system calls on the descriptors of a process, as programs over the blocks that are
allocated, the variables of the devices, and the table of descriptors.  A load or a store outside
the table is a fault.
-/

namespace Dev

open Exec

/-! ### Paths -/

/-- The character `/`. -/
def slashChar : Byte := 0x2f

/-- `Path` -/
structure Path where
  /-- its block -/
  addr : ℕ
  /-- the block of `elems`, if there was memory for it -/
  elemsAddr : Option ℕ
  buf : List Byte
  /-- the elements, by their index in `buf` -/
  elems : List ℕ

/-- The elements of a path as strings. -/
def Path.names (p : Path) : List Name := p.elems.map fun c => cstr (p.buf.drop c)

/-- The loop of `mkPath` that ends the components of a path, and the number of its slashes. -/
def endLoop : List Byte → List Byte × ℕ
  | [] => ([], 0)
  | b :: l =>
      if b = 0 then (b :: l, 0)
      else if b = slashChar then (0 :: (endLoop l).1, (endLoop l).2 + 1)
      else (b :: (endLoop l).1, (endLoop l).2)

/-- The loop of `mkPath` over the elements, from the index `c` on. -/
def elemsLoop (buf : List Byte) : ℕ → ℕ → List ℕ
  | 0, _ => []
  | n + 1, c => c :: elemsLoop buf n (c + (cstr (buf.drop c)).length + 1)

/-- `mkPath`, in a block that is zero at the start -/
def mkPath (path : Name) : Exec Heap (Option Path) := do
  match ← syskmalloc with
  | none => return none
  | some a =>
      let c := if path.head? = some slashChar then path.tail else path
      let (buf, slashes) := endLoop (c ++ List.replicate (path.length + 1 - c.length) 0)
      let nelems := (if path.head? = some slashChar then 1 else 0) + slashes
      let nelems := if nelems = 0 ∧ path.length ≠ 0 then 1 else nelems
      match ← syskmalloc with
      | none =>
          if nelems ≠ 0 then fault (.null "elems")
          return some ⟨a, none, buf, []⟩
      | some b => return some ⟨a, some b, buf, elemsLoop buf nelems 0⟩

/-! ### The state -/

/-- `MANOS_MAXFD` -/
def maxFd : ℕ := 1024

/-- `MANOS_MAXDEV` -/
def maxDev : ℤ := 8

/-- The values of `errno` that the system calls set. -/
inductive Errno where
  | ok | eperm | ebadf | enodev | emfile | eisdir | enotdir
deriving DecidableEq

/-- What the system calls of a process on its files read and change. -/
structure Files where
  heap : Heap
  machine : Machine
  /-- `rp->descriptorTable`, where a portal comes with its block -/
  table : ℕ → Option (ℕ × Portal)
  /-- `rp->slash` -/
  slash : ℕ × Portal
  /-- `rp->dot` -/
  dot : ℕ × Portal
  /-- the last value that one of the functions below has set -/
  errno : Errno

/-- A program on the blocks. -/
def onHeap {α : Type} (x : Exec Heap α) : Exec Files α :=
  onPart Files.heap (fun H s => { s with heap := H }) x

/-- A program on the variables of the devices. -/
def onMachine {α : Type} (x : Exec Machine α) : Exec Files α :=
  onPart Files.machine (fun m s => { s with machine := m }) x

/-- `errno = e` -/
def setErrno (e : Errno) : Exec Files Unit := modify fun s => { s with errno := e }

/-- `rp->descriptorTable[fd] = p` -/
def setDescriptor (fd : ℕ) (p : Option (ℕ × Portal)) : Exec Files Unit :=
  modify fun s => { s with table := Function.update s.table fd p }

/-- `rp->descriptorTable[fd]` -/
def descriptor (fd : ℤ) : Exec Files (Option (ℕ × Portal)) := do
  let s ← get
  if 0 ≤ fd ∧ fd < maxFd then return s.table fd.toNat
  else fault (.wild "descriptorTable")

/-! ### Opening and closing -/

/-- `PORTAL_ISOPEN` -/
def portalIsOpen : ℕ := 0x01

/-- `openDev`, which is what the open functions of the devices do -/
def openDev (p : Portal) (caps : ℕ) : Portal :=
  { p with offset := 0, caps := caps, flags := p.flags ||| portalIsOpen }

/-- The lowest descriptor that is free. -/
def firstFree (table : ℕ → Option (ℕ × Portal)) : Option ℕ :=
  (List.range maxFd).find? fun fd => (table fd).isNone

/-- The part of `sysopen` after the walk. -/
def takeDescriptor (pth : Path) (a : ℕ) (p : Portal) (caps : ℕ) : Exec Files ℤ := do
  let s ← get
  match firstFree s.table with
  | some fd =>
      let _ ← onHeap (deviceAt p.device)
      setDescriptor fd (some (a, openDev p caps))
      return fd
  | none =>
      setErrno .emfile
      onHeap (syskfree pth.addr)
      onHeap (syskfree a)
      return -1

/-- `sysopen` -/
def sysopen (pf : Platform) (path : Name) (caps : ℕ) : Exec Files ℤ := do
  setErrno .eperm
  match ← onHeap (mkPath path) with
  | none => return -1
  | some pth =>
      let s ← get
      let start := if path.head? = some slashChar then s.slash else s.dot
      match ← onHeap (syswalk pf start.2 pth.names) with
      | none =>
          onHeap (syskfree pth.addr)
          return -1
      | some (a, p) => takeDescriptor pth a p caps

/-- `UART_C2_TE_MASK | UART_C2_RE_MASK` -/
def uartC2TeRe : BitVec 8 := 0x0c

/-- `uart->hw->disable` of the uart of the platform -/
def uartDisable : Platform → Exec Machine Unit
  | .k70cw => onUart (modify fun uart => { uart with c2 := uart.c2 &&& ~~~uartC2TeRe })
  | .nice => pure ()

/-- `closeUart` -/
def closeUart (pf : Platform) (p : Portal) : Exec Files Unit := do
  if p.crumb.isDir then return
  match ← getNodeInfoStaticNS p (Device.uart.sns pf) .self with
  | none => setErrno .enodev
  | some ni =>
      when (ni.length = uartCtlFile ∨ ni.length = uartDataFile)
        (match ni.contents with
          | .uart _ => onMachine (uartDisable pf)
          | _ => fault (.wild "uart"))

/-- `closeLcd`, where the `disable` of the screen does nothing -/
def closeLcd (pf : Platform) : Exec Files Unit :=
  if pf.lcdScreen then pure () else fault (.null "lcd")

/-- The close functions of the devices. -/
def Device.close (pf : Platform) (d : Device) (p : Portal) : Exec Files Unit :=
  match d with
  | .root => setErrno .eperm
  | .uart => closeUart pf p
  | .lcd => closeLcd pf
  | _ => pure ()

/--
How the system calls look up a descriptor, and what they do for one that is not open; a call on an
open one goes on with its block and portal.
-/
def withDescriptor {α : Type} (fd : ℤ) (refused : α) (f : ℕ → Portal → Exec Files α) :
    Exec Files α := do
  let p ← descriptor fd
  match if fd < 0 then none else p with
  | none =>
      setErrno .ebadf
      return refused
  | some (a, p) => f a p

/-- `sysclose` -/
def sysclose (pf : Platform) (fd : ℤ) : Exec Files Unit :=
  withDescriptor fd () fun a p => do
    if p.device ≥ maxDev then return
    let d ← onHeap (deviceAt p.device)
    d.close pf p
    onHeap (syskfree a)
    setDescriptor fd.toNat none

/-! ### Reading, writing and information -/

/-- A read function of a device, on the portal of a descriptor, with what it stores. -/
def onReading (fd : ℤ) (a : ℕ) (p : Portal) (read : Exec Reading ℤ) :
    Exec Files (ℤ × (ℕ → Option Byte)) := do
  match read ⟨p, fun _ => none⟩ with
  | .stop f _ => fault f
  | .done r t =>
      setDescriptor fd.toNat (some (a, t.portal))
      return (r, t.buf)

/-- `sysread`, where `read` gives the read functions of `deviceTable` -/
def sysread (read : Device → ℕ → ℕ → Exec Reading ℤ) (fd : ℤ) (n : ℕ) :
    Exec Files (ℤ × (ℕ → Option Byte)) :=
  withDescriptor fd (-1, fun _ => none) fun a p => do
    if p.device ≥ maxDev then
      setErrno .enodev
      return (-1, fun _ => none)
    else
      let d ← onHeap (deviceAt p.device)
      onReading fd a p (read d n p.offset)

/-- `syswrite`, where `write` gives the write functions of `deviceTable` -/
def syswrite (write : Device → Portal → List Byte → Exec Machine ℤ) (fd : ℤ) (buf : List Byte) :
    Exec Files ℤ :=
  withDescriptor fd (-1) fun _ p => do
    let d ← onHeap (deviceAt p.device)
    onMachine (write d p buf)

/-- `sysgetInfoFd` -/
def sysgetInfoFd (pf : Platform) (fd : ℤ) : Exec Files (ℤ × Option NodeInfo) :=
  withDescriptor fd (-1, none) fun _ p => do
    if p.device ≥ maxDev then
      setErrno .enodev
      return (-1, none)
    else if p.crumb.isDir then
      setErrno .eisdir
      return (-1, none)
    else
      let d ← onHeap (deviceAt p.device)
      match ← onHeap (d.getInfo pf p) with
      | none => return (-1, none)
      | some ni => return (0, some ni)

/-- `DIRREAD_READBUF_MAX` -/
def dirreadReadbufMax : ℕ := 4096

/-- The string in the buffer from the index `c` on, if it ends among the next `k` bytes. -/
def stringAt (buf : ℕ → Option Byte) : ℕ → ℕ → Option Name
  | 0, _ => none
  | k + 1, c =>
      match buf c with
      | none => none
      | some b => if b = 0 then some [] else (stringAt buf k (c + 1)).map (b :: ·)

/-- The loop of `dirread` over the names in the buffer, from the index `c` on. -/
def namesFrom (p : Portal) (buf : ℕ → Option Byte) : ℕ → ℕ → Exec Files (List NodeInfo)
  | 0, _ => pure []
  | k + 1, c =>
      match stringAt buf (dirreadReadbufMax - c) c with
      | none => fault (.wild "readBuf")
      | some name => do
          let nis ← namesFrom p buf k (c + name.length + 1)
          return mkNodeInfo p { sentinel with name := name } :: nis

/-- `dirread`, with the information that it stores in a new block -/
def dirread (read : Device → ℕ → ℕ → Exec Reading ℤ) (fd : ℤ) :
    Exec Files (ℤ × Option (ℕ × List NodeInfo)) :=
  withDescriptor fd (-1, none) fun a p => do
    if p.device ≥ maxDev then
      setErrno .enodev
      return (-1, none)
    else if p.crumb.isDir = false then
      setErrno .enotdir
      return (-1, none)
    else
      let d ← onHeap (deviceAt p.device)
      let (dirs, buf) ← onReading fd a p (read d dirreadReadbufMax p.offset)
      if dirs < 1 then return (dirs, none)
      else
        match ← onHeap syskmalloc with
        | none => fault (.null "backing")
        | some b =>
            let nis ← namesFrom p buf dirs.toNat 0
            return (dirs, some (b, nis))

end Dev
