import Mathlib.Algebra.GroupWithZero.Nat
import Mathlib.Data.BitVec
import Manos.Lib.Exec
import Manos.Lib.Ring

/-!
# Processes and the scheduler

The functions of `schedule.c`, `newProc.c`, `waitpid.c`, `wakeWaiters.c`, `postsignal.c`,
`signals.c` and `pdbHandler.c` and the parts of `execv.c`, `open.c`, `close.c`, `devtimer.c`
and `main.c` that deal with processes, as programs over the state `Kernel`.  What the functions
print, the stacks and the walks to files are left out, and so are the locks: every piece of code
that takes one is in a critical region, or runs without a process, where they have no effect.
-/

set_option linter.style.nameCheck false

namespace Process

open Exec

/-- `MANOS_MAXPROC` -/
def maxProc : Nat := 127

/-- `MANOS_MAXFD` -/
def maxFd : Nat := 1024

/-! ### The state -/

/-- The process structures that `main` allocates, by their place in the array. -/
abbrev ProcId : Type := Fin maxProc

instance : NeZero maxProc := ⟨by decide⟩

/-- `ProcState` -/
inductive ProcState where
  | dead
  | spawning
  | ready
  | running
  | waiting
  | stopped
deriving DecidableEq, Repr

/-- Why a process is `ProcWaiting`: which code set its state. -/
inductive Cause where
  | waitpid
  | sleep
  | continued
deriving DecidableEq, Repr

/-- Where a process is in its code: in none of the functions below, or at one of the points
of them where another process may run.  These are not all such points: an exit may also be
interrupted inside `wakeWaiting` and `listUnlinkAndInit`, which are one step here. -/
inductive Ctl where
  | user
  /-- in `sysclose(fd)`, after `syskfree` -/
  | closing (fd : Nat)
  /-- in `syssleep`, after the alarm was registered through the descriptor `fd` -/
  | armed (fd : Nat)
  /-- in `sysclose(fd)` that `syssleep` called, after `syskfree` -/
  | disarming (fd : Nat)
  /-- in `syssleep`, after the descriptor was closed -/
  | asleep
  /-- in `__manos_exit`, after `wakeWaiting` -/
  | unlink
  /-- in `__manos_exit`, at the turn `i` of the loop that frees the descriptors -/
  | free (i : Nat)
  /-- in `__manos_exit`, after the state is set -/
  | yield
deriving DecidableEq, Repr

/-- `ProcGroup` -/
structure ProcGroup where
  memberCount : Int
  pgid : Int

/-- `Proc`.  A descriptor is a portal or `NULL`; portals have the numbers of their
allocations. -/
structure Proc where
  pid : Int
  ppid : Int
  tty : Int
  state : ProcState
  descriptorTable : Nat → Option Nat
  pgrp : Option Nat
  sigPending : BitVec 32
  sigMask : BitVec 32
  cause : Cause
  ctl : Ctl

/-- The nodes of `procRunQ` and `nextRunQ`, and those of `procFreelist` and
`nextFreelist`. -/
inductive QNode where
  | null
  | head
  | proc (p : ProcId)
deriving DecidableEq, Repr

/-- The nodes `waitQ` and `nextWaitQ` of the processes. -/
inductive WNode where
  | null
  | waitQ (p : ProcId)
  | nextWaitQ (p : ProcId)
deriving DecidableEq, Repr

/-- `AlarmChain`, but for its links -/
structure Alarm where
  wakeTime : BitVec 64
  pid : Int

/-- What is found at an index of `procTable`. -/
inductive Slot where
  | null
  | proc (p : ProcId)
  | junk
deriving DecidableEq, Repr

/-- `rp`: `NULL`, `&badProc`, or a process. -/
inductive Rp where
  | null
  | bad
  | proc (p : ProcId)
deriving DecidableEq, Repr

/-- `rp ? rp->pid : 0`, for the process structures `procs`. -/
def Rp.pid (procs : ProcId → Proc) : Rp → Int
  | null => 0
  | bad => -1
  | proc p => (procs p).pid

/-- `rp->tty`, for the process structures `procs`. -/
def Rp.tty (procs : ProcId → Proc) : Rp → Int
  | null => 0
  | bad => 0
  | proc p => (procs p).tty

/-- The state of the kernel. -/
structure Kernel where
  procs : ProcId → Proc
  /-- the links of `procRunQ` and of the nodes `nextRunQ` -/
  runQ : Links QNode
  /-- the links of `procFreelist` and of the nodes `nextFreelist` -/
  freelist : Links QNode
  waits : Links WNode
  procTable : Int → Slot
  nextPid : Int
  groups : Nat → Option ProcGroup
  /-- the alarms of the millisecond timer, in the order of their list -/
  alarms : List Alarm
  systime : BitVec 64
  rp : Rp
  /-- `scheduleProc` has handled the signals of `rp`, and not yet reset them -/
  switching : Bool
  /-- the loop variables of `nextRunnableProc`, while its loop runs -/
  scan : Option (QNode × QNode)
  /-- `YIELD()` was called and the scheduler has not run since -/
  pendsv : Bool
  /-- how many objects were allocated so far -/
  allocated : Nat
  /-- the portals passed to `kfree` and `syskfree`, in this order -/
  freed : List Nat

/-- Programs of the kernel. -/
abbrev K : Type → Type := Exec Kernel

namespace Kernel

/-- Change the structure of a process. -/
def setProc (p : ProcId) (f : Proc → Proc) (k : Kernel) : Kernel :=
  { k with procs := Function.update k.procs p (f (k.procs p)) }

/-- Change the links of the wait queues. -/
def setWaits (f : Links WNode → Links WNode) (k : Kernel) : Kernel :=
  { k with waits := f k.waits }

/-- Change the links of the run queue. -/
def setRunQ (f : Links QNode → Links QNode) (k : Kernel) : Kernel := { k with runQ := f k.runQ }

/-- Change the links of the free list. -/
def setFreelist (f : Links QNode → Links QNode) (k : Kernel) : Kernel :=
  { k with freelist := f k.freelist }

/-- Set a slot of the process table. -/
def setSlot (i : Int) (x : Slot) (k : Kernel) : Kernel :=
  { k with procTable := Function.update k.procTable i x }

end Kernel

/-- Change the structure of a process. -/
def update (p : ProcId) (f : Proc → Proc) : K Unit := Exec.modify (Kernel.setProc p f)

/-- `p->state = x` -/
def setState (p : ProcId) (x : ProcState) : K Unit := update p fun q => { q with state := x }

/-- Go on at another point of the code. -/
def setCtl (p : ProcId) (x : Ctl) : K Unit := update p fun q => { q with ctl := x }

/-- Follow a pointer that was read from the process table. -/
def deref : Slot → K ProcId
  | .null => Exec.fault (.null "procTable")
  | .proc p => pure p
  | .junk => Exec.fault (.wild "procTable")

/-- `YIELD()` -/
def yield : K Unit := Exec.modify fun k => { k with pendsv := true }

/-! ### Wait queues -/

/-- The body of the loop of `wakeWaiting`. -/
def wake (q : ProcId) : K Unit := do
  Exec.modify (Kernel.setWaits (Links.unlinkInit (.nextWaitQ q)))
  setState q .ready

/-- The loop of `wakeWaiting(p)`, with its variables `waiting` and `save`. -/
def wakeLoop (p : ProcId) : Nat → WNode → WNode → K Unit
  | 0, _, _ => Exec.fault .endless
  | n + 1, pos, save =>
    if pos = .waitQ p then pure () else
      match pos with
      | .nextWaitQ q => do
        wake q
        let k ← Exec.get
        wakeLoop p n save (if save = .waitQ p then .null else k.waits.next save)
      | .waitQ _ => Exec.fault (.wild "waiting")
      | .null => Exec.fault (.wild "waiting")

/-- A bound on the turns of the loop of `wakeWaiting`: no process is woken twice. -/
def wakeBound : Nat := maxProc + 1

/-- `wakeWaiting(p)` -/
def wakeWaiting (p : ProcId) : K Unit := do
  let k ← Exec.get
  let pos := k.waits.next (.waitQ p)
  if pos = .waitQ p then pure () else wakeLoop p wakeBound pos (k.waits.next pos)

/-- `syswaitpid(pid)`, called by the process `r`. -/
def syswaitpid (r : ProcId) (pid : Int) : K Unit :=
  if pid < 0 ∨ pid > maxProc then pure () else do
    let k ← Exec.get
    let p := k.procTable pid
    Exec.assert (k.waits.next (.nextWaitQ r) = .nextWaitQ r)
      "syswaitpid() running process already waiting"
    let p ← deref p
    Exec.modify (Kernel.setWaits (Links.addAfter (.nextWaitQ r) (.waitQ p)))
    update r fun q => { q with state := .waiting, cause := .waitpid }
    yield

/-! ### Descriptors -/

/-- `kfree(portal)` and `syskfree(portal)` -/
def kfree (portal : Option Nat) : K Unit :=
  Exec.modify fun k => { k with freed := k.freed ++ portal.toList }

/-- The loop of `processSignals` that frees the descriptors of `p`. -/
def freeDescriptors (p : ProcId) : K Unit := Exec.modify fun k =>
  { k with freed := k.freed ++ (List.range maxFd).filterMap (k.procs p).descriptorTable }

/-- `p->descriptorTable[fd] = portal` -/
def setDescriptor (p : ProcId) (fd : Nat) (portal : Option Nat) : K Unit :=
  update p fun q => { q with descriptorTable := Function.update q.descriptorTable fd portal }

/-- `__sysopen(p, path, caps)`: the descriptor of the portal that is opened for the path, if
`opens` holds, and of no portal otherwise. -/
def __sysopen (p : ProcId) (opens : Bool) : K (Option Nat) := do
  let k ← Exec.get
  match (List.range maxFd).find? fun fd => (k.procs p).descriptorTable fd = none with
  | some fd =>
    if opens then do
      setDescriptor p fd (some k.allocated)
      Exec.modify fun k => { k with allocated := k.allocated + 1 }
      pure (some fd)
    else pure none
  | none => pure none

/-- `sysclose(fd)`, called by the process `r`, up to `syskfree`.  The process goes on at
`closing`, or at `closed` if the descriptor is not open. -/
def sysclose (r : ProcId) (fd : Nat) (closing closed : Ctl) : K Unit := do
  let k ← Exec.get
  if fd < maxFd then
    match (k.procs r).descriptorTable fd with
    | none => setCtl r closed
    | some portal => do
      kfree (some portal)
      setCtl r closing
  else Exec.fault (.wild "descriptorTable")

/-- `syswrite(fd, buf, n)`.  What is written is left out; it goes through the portal of the
descriptor, which must not have been freed. -/
def syswrite (fd : Int) : K Unit := do
  let k ← Exec.get
  match k.rp with
  | .null => Exec.fault (.null "rp")
  | .bad => pure ()
  | .proc r =>
    if fd < 0 then pure ()
    else if fd < maxFd then
      match (k.procs r).descriptorTable fd.toNat with
      | none => pure ()
      | some portal => if portal ∈ k.freed then Exec.fault (.wild "portal") else pure ()
    else Exec.fault (.wild "descriptorTable")

/-! ### Signals -/

/-- `SigAbort` -/
def sigAbort : BitVec 32 := 1

/-- `SigContinue` -/
def sigContinue : BitVec 32 := 2

/-- `SigStop` -/
def sigStop : BitVec 32 := 4

/-- `SigAlarm` -/
def sigAlarm : BitVec 32 := 8

/-- `p->sigPending & sig` -/
def Proc.Pending (p : Proc) (sig : BitVec 32) : Prop := p.sigPending &&& sig ≠ 0

instance (p : Proc) (sig : BitVec 32) : Decidable (p.Pending sig) :=
  inferInstanceAs (Decidable (_ ≠ _))

/-- `syspostsignal(pid, signal)` -/
def syspostsignal (pid : Int) (signal : BitVec 32) : K Unit :=
  if pid < 0 ∨ pid > maxProc then pure () else do
    let k ← Exec.get
    let p ← deref (k.procTable pid)
    update p fun q => { q with sigPending := q.sigPending ||| (signal &&& ~~~ q.sigMask) }

/-- `setSignalMask(mask, oldMask)`, called by the process `r`. -/
def setSignalMask (r : ProcId) (mask : BitVec 32) : K Unit :=
  update r fun q => { q with sigMask := mask }

/-- `setSignalBlock(mask, oldMask)`, called by the process `r`. -/
def setSignalBlock (r : ProcId) (mask : BitVec 32) : K Unit :=
  update r fun q => { q with sigMask := q.sigMask ||| mask }

/-- `setSignalUnblock(mask, oldMask)`, called by the process `r`. -/
def setSignalUnblock (r : ProcId) (mask : BitVec 32) : K Unit :=
  update r fun q => { q with sigMask := q.sigMask ||| (q.sigMask &&& ~~~ mask) }

/-- `syswrite(rp->tty, buf, len)`, with a text about the process whose signals are handled. -/
def report : K Unit := do
  let k ← Exec.get
  syswrite (k.rp.tty k.procs)

/-- The case `SigAbort` of `processSignals(p)`. -/
def processAbort (p : ProcId) : K Unit := do
  report
  wakeWaiting p
  freeDescriptors p
  setState p .dead

/-- The case `SigStop` of `processSignals(p)`. -/
def processStop (p : ProcId) : K Unit := do
  report
  wakeWaiting p
  Exec.modify (Kernel.setWaits (Links.init (.waitQ p)))
  setState p .stopped

/-- The case `SigContinue` of `processSignals(p)`. -/
def processContinue (p : ProcId) : K Unit := do
  setState p .ready
  let k ← Exec.get
  let parent ← deref (k.procTable (k.procs p).ppid)
  Exec.modify (Kernel.setWaits (Links.addAfter (.nextWaitQ parent) (.waitQ p)))
  update parent fun q => { q with state := .waiting, cause := .continued }

/-- The cases of `processSignals(p)`. -/
def handleSignals (p : ProcId) : K Unit := do
  let k ← Exec.get
  if (k.procs p).Pending sigAbort then processAbort p
  else if (k.procs p).Pending sigStop then processStop p
  else if (k.procs p).Pending sigContinue then processContinue p
  else Exec.when ((k.procs p).Pending sigAlarm) (setState p .ready)

/-- `processSignals(p)` -/
def processSignals (p : ProcId) : K Unit := do
  handleSignals p
  update p fun q => { q with sigPending := 0 }

/-! ### Process structures -/

/-- `newProcGroup(pgid)` -/
def newProcGroup (pgid : Int) : K Nat := do
  let k ← Exec.get
  Exec.modify fun k =>
    { k with
      groups := Function.update k.groups k.allocated (some ⟨1, pgid⟩)
      allocated := k.allocated + 1 }
  pure k.allocated

/-- `leaveProcGroup(pgrp)` -/
def leaveProcGroup : Option Nat → K Unit
  | none => Exec.fault (.null "pgrp")
  | some g => do
    let k ← Exec.get
    match k.groups g with
    | none => Exec.fault (.wild "pgrp")
    | some grp =>
      let left := if grp.memberCount - 1 = 0 then none
        else some { grp with memberCount := grp.memberCount - 1 }
      Exec.modify fun k => { k with groups := Function.update k.groups g left }

/-- `INIT_LIST_HEAD` of the nodes `waitQ` and `nextWaitQ` of `p`. -/
def initWaits (p : ProcId) : K Unit := do
  Exec.modify (Kernel.setWaits (Links.init (.waitQ p)))
  Exec.modify (Kernel.setWaits (Links.init (.nextWaitQ p)))

/-- `recycleProc(p)` -/
def recycleProc (p : ProcId) : K Unit := do
  update p fun q => { q with state := .dead, descriptorTable := fun _ => none }
  initWaits p
  Exec.modify (Kernel.setRunQ (Links.init (.proc p)))
  Exec.modify (Kernel.setFreelist (Links.init (.proc p)))
  update p fun q => { q with sigPending := 0, sigMask := 0 }
  let k ← Exec.get
  leaveProcGroup (k.procs p).pgrp
  update p fun q => { q with pgrp := none, ppid := 0 }
  Exec.modify (Kernel.setFreelist (Links.addBefore (.proc p) .head))
  Exec.modify (Kernel.setSlot (k.procs p).pid .null)

/-- The first process of the free list, taken off it.  The loop of `newProc` that waits for
one runs with interrupts disabled, and does not end if there is none. -/
def takeFree : K ProcId := do
  let k ← Exec.get
  match k.freelist.next .head with
  | .head => Exec.fault .endless
  | .null => Exec.fault (.wild "procFreelist")
  | .proc p => do
    Exec.modify (Kernel.setFreelist (Links.unlink .null (.proc p)))
    pure p

/-- `p->pid`, after a process that has no pid was given the next one. -/
def assignPid (p : ProcId) : K Int := do
  let k ← Exec.get
  if (k.procs p).pid = 0 then do
    Exec.modify fun k => { k with nextPid := k.nextPid + 1 }
    update p fun q => { q with pid := k.nextPid + 1 }
    pure (k.nextPid + 1)
  else pure (k.procs p).pid

/-- `newProc()` -/
def newProc : K ProcId := do
  let p ← takeFree
  setState p .spawning
  initWaits p
  Exec.modify (Kernel.setRunQ (Links.init (.proc p)))
  Exec.modify (Kernel.setFreelist (Links.init (.proc p)))
  let pid ← assignPid p
  Exec.assert (pid ≠ 0) "newProc() pid has id 0"
  let pgrp ← newProcGroup pid
  let k ← Exec.get
  update p fun q =>
    { q with pgrp := some pgrp, ppid := k.rp.pid k.procs, sigPending := 0, sigMask := 0 }
  Exec.assert (k.procTable pid = .null) "newProc() existing proc in table"
  Exec.modify (Kernel.setSlot pid (.proc p))
  pure p

/-- `schedProc(cmd, argc, argv)`, when a portal for the console is opened if `tty` holds. -/
def schedProc (tty : Bool) : K ProcId := do
  let p ← newProc
  let fd ← __sysopen p tty
  update p fun q => { q with tty := fd.elim (-1) Int.ofNat }
  setCtl p .user
  Exec.modify (Kernel.setRunQ (Links.addBefore (.proc p) .head))
  setState p .ready
  pure p

/-! ### The scheduler -/

/-- The loop of `nextRunnableProc` goes on with the entry `save`. -/
def advance (save : QNode) : K Unit := Exec.modify fun k =>
  { k with scan := some (save, if save = .head then .null else k.runQ.next save) }

/-- The body of the loop of `nextRunnableProc` for the process `p`: whether it was found
ready. -/
def visit (p : ProcId) (save : QNode) : K Bool := do
  let k ← Exec.get
  if (k.procs p).state = .dead then do
    Exec.modify (Kernel.setRunQ (Links.unlink .null (.proc p)))
    recycleProc p
    advance save
    pure false
  else do
    processSignals p
    let k ← Exec.get
    if (k.procs p).state = .ready then do
      Exec.modify (Kernel.setRunQ (Links.unlinkInit (.proc p)))
      Exec.modify fun k => { k with scan := none }
      pure true
    else do
      advance save
      pure false

/-- One turn of the loop of `nextRunnableProc`, its start, or its end: the process it
returns. -/
def nextRunnableProc : K (Option ProcId) := do
  let k ← Exec.get
  match k.scan with
  | none => do
    let pos := k.runQ.next .head
    Exec.when (pos ≠ .head)
      (Exec.modify fun k => { k with scan := some (pos, k.runQ.next pos) })
    pure none
  | some (.head, _) => do
    Exec.modify fun k => { k with scan := none }
    pure none
  | some (.null, _) => Exec.fault (.wild "procRunQ")
  | some (.proc p, save) => do
    let found ← visit p save
    pure (if found then some p else none)

/-- `scheduleProc` up to the end of the cases of `processSignals(rp)`.  It is not in a critical
region, and interrupts may post signals. -/
def preempt : K Unit := do
  let k ← Exec.get
  match k.rp with
  | .proc r => do
    Exec.when ((k.procs r).state = .running) (setState r .ready)
    handleSignals r
  | _ => pure ()
  Exec.modify fun k => { k with switching := true }

/-- The part of `scheduleProc` from there to its loop. -/
def leave : K Unit := do
  let k ← Exec.get
  match k.rp with
  | .proc r => do
    update r fun q => { q with sigPending := 0 }
    Exec.modify (Kernel.setRunQ (Links.addBefore (.proc r) .head))
  | _ => pure ()
  Exec.modify fun k => { k with rp := .bad, pendsv := false, switching := false }

/-- A turn of the loops of `scheduleProc` and `nextRunnableProc`, and the rest of
`scheduleProc` when a process was found. -/
def dispatch : K Unit := do
  let found ← nextRunnableProc
  match found with
  | none => pure ()
  | some p => do
    Exec.modify fun k => { k with rp := .proc p }
    setState p .running

/-! ### Sleep and exit -/

/-- `atoi(duration)` for the text that `syssleep(millis)` writes: `fmtSnprintf` prints the
number as an unsigned one, and `atoi` goes up to the largest `int`. -/
def alarmDelay (millis : BitVec 32) : BitVec 64 :=
  if millis.toNat < 2 ^ 31 then millis.setWidth 64 else 2 ^ 31 - 1

/-- `writeTimer` for the millisecond timer, called by the process `r`. -/
def writeTimer (r : ProcId) (millis : BitVec 32) : K Unit := Exec.modify fun k =>
  { k with alarms := k.alarms ++ [⟨k.systime + alarmDelay millis, (k.procs r).pid⟩] }

/-- `syssleep(millis)`, called by the process `r`, up to the alarm; a portal is opened for the
timer if `opens` holds. -/
def syssleep (r : ProcId) (millis : BitVec 32) (opens : Bool) : K Unit := do
  let fd ← __sysopen r opens
  match fd with
  | some fd => do
    writeTimer r millis
    setCtl r (.armed fd)
  | none => pure ()

/-- The next part of `sysclose` or `syssleep`, run by the process `r`. -/
def resume (r : ProcId) : K Unit := do
  let k ← Exec.get
  match (k.procs r).ctl with
  | .closing fd => do
    setDescriptor r fd none
    setCtl r .user
  | .armed fd => sysclose r fd (.disarming fd) .asleep
  | .disarming fd => do
    setDescriptor r fd none
    setCtl r .asleep
  | .asleep => do
    update r fun q => { q with state := .waiting, cause := .sleep }
    yield
    setCtl r .user
  | _ => pure ()

/-- The loop of `pdbHandler` over alarms, with the alarms that it keeps. -/
def expire (now : BitVec 64) : List Alarm → K (List Alarm)
  | [] => pure []
  | a :: l =>
    if a.wakeTime ≤ now then do
      syspostsignal a.pid sigAlarm
      expire now l
    else do
      let kept ← expire now l
      pure (a :: kept)

/-- `pdbHandler()` -/
def pdbHandler : K Unit := do
  let k ← Exec.get
  let kept ← expire k.systime k.alarms
  Exec.modify fun k => { k with alarms := kept }

/-- `toieHandler()` -/
def toieHandler : K Unit := Exec.modify fun k => { k with systime := k.systime + 1 }

/-- The next part of `__manos_exit`, run by the process `r`. -/
def __manos_exit (r : ProcId) : K Unit := do
  let k ← Exec.get
  match (k.procs r).ctl with
  | .user => do
    wakeWaiting r
    setCtl r .unlink
  | .unlink => do
    Exec.modify (Kernel.setWaits (Links.unlinkInit (.nextWaitQ r)))
    setCtl r (.free 0)
  | .free i =>
    if i < maxFd then do
      kfree ((k.procs r).descriptorTable i)
      setCtl r (.free (i + 1))
    else do
      setState r .dead
      setCtl r .yield
  | .yield => yield
  | _ => pure ()

/-! ### Boot -/

/-- The loop of `main` that makes the free list. -/
def makeFreelist : List ProcId → K Unit
  | [] => pure ()
  | p :: l => do
    Exec.modify (Kernel.setFreelist (Links.init (.proc p)))
    Exec.modify (Kernel.setFreelist (Links.addAfter (.proc p) .head))
    makeFreelist l

/-- `main` up to the first process. -/
def setup : K Unit := do
  Exec.modify (Kernel.setRunQ (Links.init .head))
  Exec.modify (Kernel.setFreelist (Links.init .head))
  Exec.modify fun k => { k with nextPid := 0 }
  makeFreelist (List.finRange maxProc)
  Exec.modify fun k =>
    { k with procTable := fun i => if 0 ≤ i ∧ i < maxProc then .null else k.procTable i }

/-- `main`, with the first process. -/
def boot (tty : Bool) : K ProcId := do
  setup
  schedProc tty

/-! ### Steps -/

/-- What happens in the kernel. -/
inductive Event where
  /-- the running process starts a process -/
  | exec (tty : Bool)
  /-- the running process waits for another one -/
  | waitpid (pid : Int)
  /-- the running process sleeps -/
  | sleep (millis : BitVec 32) (opens : Bool)
  /-- the running process opens a file -/
  | openFile (opens : Bool)
  /-- the running process closes a file -/
  | closeFile (fd : Nat)
  /-- the running process goes on with `sysclose` or `syssleep` -/
  | resume
  /-- the running process sets its signal mask -/
  | mask (m : BitVec 32)
  /-- the running process blocks signals -/
  | block (m : BitVec 32)
  /-- the running process unblocks signals -/
  | unblock (m : BitVec 32)
  /-- the running process goes on with its exit -/
  | exit
  /-- a process or an interrupt posts a signal -/
  | post (pid : Int) (signal : BitVec 32)
  /-- an interrupt of the millisecond timer -/
  | alarms
  /-- an interrupt of the clock -/
  | tick
  /-- a SysTick or PendSV interrupt -/
  | preempt
  /-- the scheduler leaves the process that ran -/
  | leave
  /-- the scheduler goes on -/
  | dispatch

/-- The process `r` executes its code. -/
structure Runs (k : Kernel) (r : ProcId) : Prop where
  rp : k.rp = .proc r
  pendsv : k.pendsv = false
  switching : k.switching = false

/-- The process `r` executes its own code. -/
structure Executes (k : Kernel) (r : ProcId) : Prop extends Runs k r where
  ctl : (k.procs r).ctl = .user

/-- The steps of the kernel: those of the running process, those of interrupts, and those of
the scheduler.  A step is a part of the code in which nothing else that is modelled happens.
Critical regions are taken as atomic, and `wakeWaiting` and `listUnlinkAndInit` of an exit as not
interrupted.  The code does not ensure the latter; in `Exits.Step` these are loads and stores. -/
inductive Step (k : Kernel) : Event → Kernel → Prop where
  | exec {r : ProcId} {tty : Bool} {p : ProcId} {k' : Kernel} (hr : Executes k r)
      (h : schedProc tty k = .done p k') : Step k (.exec tty) k'
  | waitpid {r : ProcId} {pid : Int} {k' : Kernel} (hr : Executes k r)
      (h : syswaitpid r pid k = .done () k') : Step k (.waitpid pid) k'
  | sleep {r : ProcId} {millis : BitVec 32} {opens : Bool} {k' : Kernel} (hr : Executes k r)
      (h : syssleep r millis opens k = .done () k') : Step k (.sleep millis opens) k'
  | openFile {r : ProcId} {opens : Bool} {fd : Option Nat} {k' : Kernel} (hr : Executes k r)
      (h : __sysopen r opens k = .done fd k') : Step k (.openFile opens) k'
  | closeFile {r : ProcId} {fd : Nat} {k' : Kernel} (hr : Executes k r)
      (h : sysclose r fd (.closing fd) .user k = .done () k') : Step k (.closeFile fd) k'
  | resume {r : ProcId} {k' : Kernel} (hr : Runs k r) (h : resume r k = .done () k') :
      Step k .resume k'
  | mask {r : ProcId} {m : BitVec 32} {k' : Kernel} (hr : Executes k r)
      (h : setSignalMask r m k = .done () k') : Step k (.mask m) k'
  | block {r : ProcId} {m : BitVec 32} {k' : Kernel} (hr : Executes k r)
      (h : setSignalBlock r m k = .done () k') : Step k (.block m) k'
  | unblock {r : ProcId} {m : BitVec 32} {k' : Kernel} (hr : Executes k r)
      (h : setSignalUnblock r m k = .done () k') : Step k (.unblock m) k'
  | exit {r : ProcId} {k' : Kernel} (hr : Runs k r) (h : __manos_exit r k = .done () k') :
      Step k .exit k'
  | post {pid : Int} {signal : BitVec 32} {k' : Kernel} (hs : k.scan = none)
      (h : syspostsignal pid signal k = .done () k') : Step k (.post pid signal) k'
  | alarms {k' : Kernel} (hs : k.scan = none) (h : pdbHandler k = .done () k') :
      Step k .alarms k'
  | tick {k' : Kernel} (hs : k.scan = none) (h : toieHandler k = .done () k') :
      Step k .tick k'
  | preempt {k' : Kernel} (hr : k.rp ≠ .bad) (hw : k.switching = false)
      (h : preempt k = .done () k') : Step k .preempt k'
  | leave {k' : Kernel} (hw : k.switching = true) (h : leave k = .done () k') :
      Step k .leave k'
  | dispatch {k' : Kernel} (hr : k.rp = .bad) (h : dispatch k = .done () k') :
      Step k .dispatch k'

/-- The kernel before `main`: zero, except for the memory after the process table. -/
def powerOn (memory : Int → Slot) : Kernel where
  procs := fun _ => ⟨0, 0, 0, .dead, fun _ => none, none, 0, 0, .waitpid, .user⟩
  runQ := ⟨fun _ => .null, fun _ => .null⟩
  freelist := ⟨fun _ => .null, fun _ => .null⟩
  waits := ⟨fun _ => .null, fun _ => .null⟩
  procTable := memory
  nextPid := 0
  groups := fun _ => none
  alarms := []
  systime := 0
  rp := .null
  switching := false
  scan := none
  pendsv := false
  allocated := 0
  freed := []

/-- The kernel after boot, whatever is in the memory after the process table. -/
def Booted (k : Kernel) : Prop :=
  ∃ memory tty p, boot tty (powerOn memory) = .done p k

end Process
