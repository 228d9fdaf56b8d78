import Manos.Process.Effects
import Manos.Lib.Run

/-!
# The steps of the kernel

Every step of the kernel is one of the changes listed in `Effect`.
-/

namespace Process

open Exec

variable {k k' : Kernel} {p q r : ProcId} {e : Event}

/-! ### The changes -/

/-- The running process is ready while its signals are handled. -/
def Kernel.paused (r : ProcId) (k : Kernel) : Kernel :=
  if (k.procs r).state = .running then k.setProc r fun q => { q with state := .ready } else k

/-- The process `r` waits for the process `p`. -/
def Kernel.joined (r p : ProcId) (k : Kernel) : Kernel :=
  { (k.setWaits (Links.addAfter (.nextWaitQ r) (.waitQ p))).setProc r
      fun q => { q with state := .waiting, cause := .waitpid } with
    pendsv := true }

/-- The process `r` set an alarm. -/
def Kernel.arm (r : ProcId) (millis : BitVec 32) (k : Kernel) : Kernel :=
  { k with alarms := k.alarms ++ [⟨k.systime + alarmDelay millis, (k.procs r).pid⟩] }

/-- Portals were passed to `kfree`. -/
def Kernel.release (l : List Nat) (k : Kernel) : Kernel := { k with freed := k.freed ++ l }

/-- The loop of `nextRunnableProc` goes on with the entry `save`. -/
def Kernel.advanced (save : QNode) (k : Kernel) : Kernel :=
  { k with scan := some (save, if save = .head then .null else k.runQ.next save) }

/-- The process `p` is taken off the run queue and runs. -/
def Kernel.started (p : ProcId) (k : Kernel) : Kernel :=
  { k.setRunQ (Links.unlinkInit (.proc p)) with scan := none, rp := .proc p }.setProc p
    fun q => { q with state := .running }

/-- The scheduler has left the process that ran. -/
def Kernel.left (k : Kernel) : Kernel :=
  { k with rp := .bad, pendsv := false, switching := false }

/-- What a step may lead to. -/
inductive Effect (k : Kernel) : Event → Kernel → Prop where
  -- the running process
  | exec {p r : ProcId} {tty : Bool} (hr : Executes k r)
      (hf : k.freelist.next .head = .proc p) (h₀ : k.pidFor p ≠ 0)
      (ht : k.procTable (k.pidFor p) = .null) : Effect k (.exec tty) ((k.taken p).queued p (-1))
  | execOpen {p r : ProcId} {tty : Bool} {fd : Nat} (hr : Executes k r)
      (hf : k.freelist.next .head = .proc p) (h₀ : k.pidFor p ≠ 0)
      (ht : k.procTable (k.pidFor p) = .null)
      (hd : ((k.taken p).procs p).descriptorTable fd = Option.none) :
      Effect k (.exec tty) (((k.taken p).opened p fd).queued p fd)
  | waitpid {p r : ProcId} {pid : Int} (hr : Executes k r) (h₀ : 0 ≤ pid) (h₁ : pid ≤ maxProc)
      (ha : k.waits.next (.nextWaitQ r) = .nextWaitQ r) (hp : k.procTable pid = .proc p) :
      Effect k (.waitpid pid) (k.joined r p)
  | waitpidNone {r : ProcId} {pid : Int} (hr : Executes k r) (hp : pid < 0 ∨ pid > maxProc) :
      Effect k (.waitpid pid) k
  | sleep {r : ProcId} {millis : BitVec 32} {opens : Bool} {fd : Nat} (hr : Executes k r)
      (hd : (k.procs r).descriptorTable fd = Option.none) :
      Effect k (.sleep millis opens) (((k.opened r fd).arm r millis).setProc r
        fun q => { q with ctl := .armed fd })
  | sleepNone {r : ProcId} {millis : BitVec 32} {opens : Bool} (hr : Executes k r) :
      Effect k (.sleep millis opens) k
  | openFile {r : ProcId} {opens : Bool} {fd : Nat} (hr : Executes k r)
      (hd : (k.procs r).descriptorTable fd = Option.none) :
      Effect k (.openFile opens) (k.opened r fd)
  | openFileNone {r : ProcId} {opens : Bool} (hr : Executes k r) : Effect k (.openFile opens) k
  | closeFile {r : ProcId} {fd portal : Nat} (hr : Executes k r)
      (hd : (k.procs r).descriptorTable fd = some portal) :
      Effect k (.closeFile fd) ((k.release [portal]).setProc r
        fun q => { q with ctl := .closing fd })
  | closeFileNone {r : ProcId} {fd : Nat} (hr : Executes k r) : Effect k (.closeFile fd) k
  | closing {r : ProcId} {fd : Nat} (hr : Runs k r) (hc : (k.procs r).ctl = .closing fd) :
      Effect k .resume (k.setProc r fun q =>
        { q with
          descriptorTable := Function.update q.descriptorTable fd Option.none
          ctl := .user })
  | armed {r : ProcId} {fd portal : Nat} (hr : Runs k r) (hc : (k.procs r).ctl = .armed fd)
      (hd : (k.procs r).descriptorTable fd = some portal) :
      Effect k .resume ((k.release [portal]).setProc r fun q => { q with ctl := .disarming fd })
  | armedNone {r : ProcId} {fd : Nat} (hr : Runs k r) (hc : (k.procs r).ctl = .armed fd) :
      Effect k .resume (k.setProc r fun q => { q with ctl := .asleep })
  | disarming {r : ProcId} {fd : Nat} (hr : Runs k r) (hc : (k.procs r).ctl = .disarming fd) :
      Effect k .resume (k.setProc r fun q =>
        { q with
          descriptorTable := Function.update q.descriptorTable fd Option.none
          ctl := .asleep })
  | asleep {r : ProcId} (hr : Runs k r) (hc : (k.procs r).ctl = .asleep) :
      Effect k .resume { k.setProc r fun q =>
        { q with state := .waiting, cause := .sleep, ctl := .user } with pendsv := true }
  | resumeNone {r : ProcId} (hr : Runs k r) (hc : (k.procs r).ctl ≠ .asleep) :
      Effect k .resume k
  | mask {r : ProcId} {m : BitVec 32} (hr : Executes k r) :
      Effect k (.mask m) (k.setProc r fun q => { q with sigMask := m })
  | block {r : ProcId} {m : BitVec 32} (hr : Executes k r) :
      Effect k (.block m) (k.setProc r fun q => { q with sigMask := q.sigMask ||| m })
  | unblock {r : ProcId} {m : BitVec 32} (hr : Executes k r) :
      Effect k (.unblock m) (k.setProc r fun q =>
        { q with sigMask := q.sigMask ||| (q.sigMask &&& ~~~ m) })
  | exitWake {r : ProcId} {k₁ : Kernel} (hr : Runs k r) (hc : (k.procs r).ctl = .user)
      (hw : wakeWaiting r k = .done () k₁) :
      Effect k .exit (k₁.setProc r fun q => { q with ctl := .unlink })
  | exitUnlink {r : ProcId} (hr : Runs k r) (hc : (k.procs r).ctl = .unlink) :
      Effect k .exit ((k.setWaits (Links.unlinkInit (.nextWaitQ r))).setProc r
        fun q => { q with ctl := .free 0 })
  | exitFree {r : ProcId} {i : Nat} (hr : Runs k r) (hc : (k.procs r).ctl = .free i)
      (hi : i < maxFd) :
      Effect k .exit ((k.release ((k.procs r).descriptorTable i).toList).setProc r
        fun q => { q with ctl := .free (i + 1) })
  | exitDead {r : ProcId} {i : Nat} (hr : Runs k r) (hc : (k.procs r).ctl = .free i)
      (hi : ¬ i < maxFd) :
      Effect k .exit (k.setProc r fun q => { q with state := .dead, ctl := .yield })
  | exitYield {r : ProcId} (hr : Runs k r) (hc : (k.procs r).ctl = .yield) :
      Effect k .exit { k with pendsv := true }
  | exitNone {r : ProcId} (hr : Runs k r) (hc : (k.procs r).ctl ≠ .user) : Effect k .exit k
  -- interrupts
  | post {p : ProcId} {pid : Int} {signal : BitVec 32} (hs : k.scan = Option.none) (h₀ : 0 ≤ pid)
      (h₁ : pid ≤ maxProc) (hp : k.procTable pid = .proc p) :
      Effect k (.post pid signal) (k.setProc p fun q =>
        { q with sigPending := q.sigPending ||| (signal &&& ~~~ q.sigMask) })
  | postNone {pid : Int} {signal : BitVec 32} (hs : k.scan = Option.none)
      (hp : pid < 0 ∨ pid > maxProc) : Effect k (.post pid signal) k
  | alarms (hs : k.scan = Option.none) :
      Effect k .alarms { k.rung k.alarms with
        alarms := k.alarms.filter fun a => ¬ a.wakeTime ≤ k.systime }
  | tick (hs : k.scan = Option.none) : Effect k .tick { k with systime := k.systime + 1 }
  -- the scheduler
  | preempt {r : ProcId} {k₁ : Kernel} (hr : k.rp = .proc r) (hw : k.switching = false)
      (hh : handleSignals r (k.paused r) = .done () k₁) :
      Effect k .preempt { k₁ with switching := true }
  | preemptNone (hr : k.rp = .null) (hw : k.switching = false) :
      Effect k .preempt { k with switching := true }
  | leave {r : ProcId} (hr : k.rp = .proc r) (hw : k.switching = true) :
      Effect k .leave ((k.reset r).setRunQ (Links.addBefore (.proc r) .head)).left
  | leaveNone (hr : ∀ r, k.rp ≠ .proc r) (hw : k.switching = true) : Effect k .leave k.left
  | start (hr : k.rp = .bad) (hs : k.scan = Option.none) (hn : k.runQ.next .head ≠ .head) :
      Effect k .dispatch
        { k with scan := some (k.runQ.next .head, k.runQ.next (k.runQ.next .head)) }
  | idle (hr : k.rp = .bad) (hs : k.scan = Option.none) (hn : k.runQ.next .head = .head) :
      Effect k .dispatch k
  | stop {save : QNode} (hr : k.rp = .bad) (hs : k.scan = some (.head, save)) :
      Effect k .dispatch { k with scan := Option.none }
  | recycle {p : ProcId} {save : QNode} {groups : Nat → Option ProcGroup} (hr : k.rp = .bad)
      (hs : k.scan = some (.proc p, save)) (hd : (k.procs p).state = .dead) :
      Effect k .dispatch
        (((k.setRunQ (Links.unlink .null (.proc p))).recycled p groups).advanced save)
  | skip {p : ProcId} {save : QNode} {k₁ : Kernel} (hr : k.rp = .bad)
      (hs : k.scan = some (.proc p, save)) (hd : (k.procs p).state ≠ .dead)
      (hh : handleSignals p k = .done () k₁) (hn : (k₁.procs p).state ≠ .ready) :
      Effect k .dispatch ((k₁.reset p).advanced save)
  | run {p : ProcId} {save : QNode} {k₁ : Kernel} (hr : k.rp = .bad)
      (hs : k.scan = some (.proc p, save)) (hd : (k.procs p).state ≠ .dead)
      (hh : handleSignals p k = .done () k₁) (hn : (k₁.procs p).state = .ready) :
      Effect k .dispatch ((k₁.reset p).started p)

/-! ### Steps are such changes -/

theorem effect_exec {tty : Bool} (hr : Executes k r) (h : schedProc tty k = .done p k') :
  Effect k (.exec tty) k'
  := by
  obtain ⟨⟨hf, h₀, ht⟩, hk'⟩ := schedProc_taken h
  rcases hk' with rfl | ⟨fd, hd, rfl⟩
  · exact .exec hr hf h₀ ht
  · exact .execOpen hr hf h₀ ht hd

theorem effect_waitpid {pid : Int} (hr : Executes k r)
    (h : syswaitpid r pid k = .done () k') :
  Effect k (.waitpid pid) k'
  := by
  rw [syswaitpid] at h
  split at h
  · rename_i hpid
    cases h
    exact .waitpidNone hr hpid
  · rename_i hpid
    rw [bind_done (get_apply k), bind_eq_done_iff] at h
    obtain ⟨_, k₁, ha, h⟩ := h
    obtain ⟨ha, rfl⟩ := assert_eq_done_iff.mp ha
    rw [bind_eq_done_iff] at h
    obtain ⟨p, k₂, hd, h⟩ := h
    obtain ⟨hp, rfl⟩ := deref_eq_done hd
    cases h
    apply Effect.waitpid hr _ _ ha hp
    · omega
    · omega

theorem effect_sleep {millis : BitVec 32} {opens : Bool} (hr : Executes k r)
    (h : syssleep r millis opens k = .done () k') :
  Effect k (.sleep millis opens) k'
  := by
  rw [syssleep, bind_eq_done_iff] at h
  obtain ⟨fd, k₁, hopen, h⟩ := h
  rcases sysopen_done hopen with ⟨rfl, rfl⟩ | ⟨n, rfl, hn, rfl⟩
  · cases h
    exact .sleepNone hr
  · cases h
    exact .sleep hr hn

/-- The first part of `sysclose`. -/
theorem sysclose_done {fd : Nat} {closing closed : Ctl}
    (h : sysclose r fd closing closed k = .done () k') :
  ((k.procs r).descriptorTable fd = none ∧ k' = k.setProc r fun q => { q with ctl := closed }) ∨
    ∃ portal, (k.procs r).descriptorTable fd = some portal ∧
      k' = (k.release [portal]).setProc r fun q => { q with ctl := closing }
  := by
  rw [sysclose, bind_done (get_apply k)] at h
  split at h
  · cases hd : (k.procs r).descriptorTable fd with
    | none =>
        rw [hd] at h
        cases h
        left
        exact ⟨rfl, rfl⟩
    | some portal =>
        rw [hd] at h
        cases h
        right
        exact ⟨portal, rfl, rfl⟩
  · cases h

/-- To go on at the same point changes nothing. -/
theorem Kernel.setProc_ctl {c : Ctl} (hc : (k.procs r).ctl = c) :
  (k.setProc r fun q => { q with ctl := c }) = k
  := by
  have hsame : { k.procs r with ctl := c } = k.procs r := by
    rw [← hc]
  simp only [Kernel.setProc, hsame, Function.update_eq_self]

theorem effect_resume (hr : Runs k r) (h : resume r k = .done () k') :
  Effect k .resume k'
  := by
  unfold resume at h
  rw [bind_done (get_apply k)] at h
  cases hc : (k.procs r).ctl with
  | closing fd =>
      rw [hc] at h
      cases h
      have := Effect.closing hr hc
      simpa [Kernel.setProc] using this
  | armed fd =>
      rw [hc] at h
      rcases sysclose_done h with ⟨-, rfl⟩ | ⟨portal, hd, rfl⟩
      · exact .armedNone hr hc
      · exact .armed hr hc hd
  | disarming fd =>
      rw [hc] at h
      cases h
      have := Effect.disarming hr hc
      simpa [Kernel.setProc] using this
  | asleep =>
      rw [hc] at h
      cases h
      have := Effect.asleep hr hc
      simpa [Kernel.setProc] using this
  | user =>
      rw [hc] at h
      cases h
      refine .resumeNone hr ?_
      rw [hc]
      rintro ⟨⟩
  | unlink =>
      rw [hc] at h
      cases h
      refine .resumeNone hr ?_
      rw [hc]
      rintro ⟨⟩
  | free i =>
      rw [hc] at h
      cases h
      refine .resumeNone hr ?_
      rw [hc]
      rintro ⟨⟩
  | yield =>
      rw [hc] at h
      cases h
      refine .resumeNone hr ?_
      rw [hc]
      rintro ⟨⟩

theorem effect_exit (hr : Runs k r) (h : __manos_exit r k = .done () k') :
  Effect k .exit k'
  := by
  unfold __manos_exit at h
  rw [bind_done (get_apply k)] at h
  cases hc : (k.procs r).ctl with
  | user =>
      rw [hc] at h
      change (wakeWaiting r >>= _) k = _ at h
      rw [bind_eq_done_iff] at h
      obtain ⟨_, k₁, hw, h⟩ := h
      cases h
      exact .exitWake hr hc hw
  | unlink =>
      rw [hc] at h
      cases h
      exact .exitUnlink hr hc
  | free i =>
      rw [hc] at h
      dsimp only at h
      split at h
      · rename_i hi
        cases h
        exact .exitFree hr hc hi
      · rename_i hi
        cases h
        have := Effect.exitDead hr hc hi
        simpa [Kernel.setProc] using this
  | yield =>
      rw [hc] at h
      cases h
      exact .exitYield hr hc
  | closing fd =>
      rw [hc] at h
      cases h
      refine .exitNone hr ?_
      rw [hc]
      rintro ⟨⟩
  | armed fd =>
      rw [hc] at h
      cases h
      refine .exitNone hr ?_
      rw [hc]
      rintro ⟨⟩
  | disarming fd =>
      rw [hc] at h
      cases h
      refine .exitNone hr ?_
      rw [hc]
      rintro ⟨⟩
  | asleep =>
      rw [hc] at h
      cases h
      refine .exitNone hr ?_
      rw [hc]
      rintro ⟨⟩

theorem effect_preempt (hr : k.rp ≠ .bad) (hw : k.switching = false)
    (h : preempt k = .done () k') :
  Effect k .preempt k'
  := by
  rw [preempt, bind_done (get_apply k)] at h
  cases hrp : k.rp with
  | bad => exact absurd hrp hr
  | null =>
      rw [hrp] at h
      cases h
      exact .preemptNone hrp hw
  | proc r =>
      rw [hrp] at h
      dsimp only at h
      have hpaused : Exec.when ((k.procs r).state = .running) (setState r .ready) k =
          .done () (k.paused r) := by
        by_cases hs : (k.procs r).state = .running
        · rw [when_pos hs, Kernel.paused, if_pos hs]
          rfl
        · rw [when_neg hs, Kernel.paused, if_neg hs]
          rfl
      rw [bind_done hpaused, bind_eq_done_iff] at h
      obtain ⟨_, k₂, hhandle, h⟩ := h
      cases h
      exact .preempt hrp hw hhandle

theorem effect_leave (hw : k.switching = true) (h : leave k = .done () k') :
  Effect k .leave k'
  := by
  rw [leave, bind_done (get_apply k)] at h
  cases hrp : k.rp with
  | proc r =>
      rw [hrp] at h
      cases h
      exact .leave hrp hw
  | null =>
      rw [hrp] at h
      cases h
      apply Effect.leaveNone _ hw
      intro r
      rw [hrp]
      rintro ⟨⟩
  | bad =>
      rw [hrp] at h
      cases h
      apply Effect.leaveNone _ hw
      intro r
      rw [hrp]
      rintro ⟨⟩

/-- What a turn of the loop of `nextRunnableProc` does for a process. -/
theorem effect_visit {save : QNode} {found : Bool} (hr : k.rp = .bad)
    (hs : k.scan = some (.proc p, save)) (h : visit p save k = .done found k') :
  (found = false ∧ Effect k .dispatch k') ∨
    (found = true ∧ Effect k .dispatch
      ({ k' with rp := .proc p }.setProc p fun q => { q with state := .running }))
  := by
  rw [visit, bind_done (get_apply k)] at h
  by_cases hd : (k.procs p).state = .dead
  · left
    rw [if_pos hd, bind_done (modify_apply _ _), bind_eq_done_iff] at h
    obtain ⟨_, k₁, hrec, h⟩ := h
    obtain ⟨groups, rfl⟩ := recycleProc_done hrec
    cases h
    exact ⟨rfl, .recycle hr hs hd⟩
  · rw [if_neg hd, bind_eq_done_iff] at h
    obtain ⟨_, k₁, hsig, h⟩ := h
    obtain ⟨k₂, hh, rfl⟩ := processSignals_done hsig
    rw [bind_done (get_apply _)] at h
    have hstate : ((k₂.reset p).procs p).state = (k₂.procs p).state := by
      rw [Kernel.reset, Kernel.setProc_self]
    rw [hstate] at h
    by_cases hn : (k₂.procs p).state = .ready
    · right
      rw [if_pos hn] at h
      cases h
      exact ⟨rfl, .run hr hs hd hh hn⟩
    · left
      rw [if_neg hn] at h
      cases h
      exact ⟨rfl, .skip hr hs hd hh hn⟩

theorem effect_dispatch (hr : k.rp = .bad) (h : dispatch k = .done () k') :
  Effect k .dispatch k'
  := by
  rw [dispatch, bind_eq_done_iff] at h
  obtain ⟨found, k₁, hnext, h⟩ := h
  rw [nextRunnableProc, bind_done (get_apply k)] at hnext
  match hs : k.scan with
  | none =>
      rw [hs] at hnext
      dsimp only at hnext
      by_cases hn : k.runQ.next .head = .head
      · rw [when_neg (not_not.mpr hn)] at hnext
        cases hnext
        cases h
        exact .idle hr hs hn
      · rw [when_pos hn] at hnext
        cases hnext
        cases h
        exact .start hr hs hn
  | some (.head, save) =>
      rw [hs] at hnext
      cases hnext
      cases h
      exact .stop hr hs
  | some (.null, save) =>
      rw [hs] at hnext
      cases hnext
  | some (.proc p, save) =>
      rw [hs] at hnext
      dsimp only at hnext
      rw [bind_eq_done_iff] at hnext
      obtain ⟨b, k₂, hv, hnext⟩ := hnext
      rcases effect_visit hr hs hv with ⟨rfl, he⟩ | ⟨rfl, he⟩
      · cases hnext
        cases h
        exact he
      · cases hnext
        cases h
        exact he

/-- Every step is one of the changes. -/
theorem Step.effect (h : Step k e k') :
  Effect k e k'
  := by
  cases h with
  | exec hr h => exact effect_exec hr h
  | waitpid hr h => exact effect_waitpid hr h
  | sleep hr h => exact effect_sleep hr h
  | openFile hr h =>
      rcases sysopen_done h with ⟨-, rfl⟩ | ⟨n, -, hn, rfl⟩
      · exact .openFileNone hr
      · exact .openFile hr hn
  | closeFile hr h =>
      rcases sysclose_done h with ⟨-, rfl⟩ | ⟨portal, hd, rfl⟩
      · rw [Kernel.setProc_ctl hr.ctl]
        exact .closeFileNone hr
      · exact .closeFile hr hd
  | resume hr h => exact effect_resume hr h
  | mask hr h =>
      cases h
      exact .mask hr
  | block hr h =>
      cases h
      exact .block hr
  | unblock hr h =>
      cases h
      exact .unblock hr
  | exit hr h => exact effect_exit hr h
  | post hs h =>
      rcases syspostsignal_done h with ⟨hp, rfl⟩ | ⟨p, h₀, h₁, hp, rfl⟩
      · exact .postNone hs hp
      · exact .post hs h₀ h₁ hp
  | alarms hs h =>
      rw [pdbHandler, bind_done (get_apply k), bind_eq_done_iff] at h
      obtain ⟨kept, k₁, hexp, h⟩ := h
      obtain ⟨rfl, rfl⟩ := expire_done rfl hexp
      cases h
      exact .alarms hs
  | tick hs h =>
      cases h
      exact .tick hs
  | preempt hr hw h => exact effect_preempt hr hw h
  | leave hw h => exact effect_leave hw h
  | dispatch hr h => exact effect_dispatch hr h

end Process
