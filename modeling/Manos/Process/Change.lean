import Manos.Process.Places

/-!
# What a step does to one process

For every process the ways in which a step may change its structure.
-/

namespace Process

open Exec

variable {k k' k₁ : Kernel} {p q r : ProcId} {e : Event}

/-! ### Signals -/

/-- The state of a process after its signals were handled. -/
def Proc.after (x : Proc) : ProcState :=
  if x.handled = some sigAbort then .dead
  else if x.handled = some sigStop then .stopped
  else if x.handled = none then x.state
  else .ready

/-- What the cases of `processSignals(p)` may do to the process `q`. -/
inductive Signalled (k : Kernel) (p q : ProcId) : Proc → Prop where
  | same (hq : q ≠ p) : Signalled k p q (k.procs q)
  | self (hq : q = p) : Signalled k p q { k.procs q with state := (k.procs q).after }
  | selfParent (hq : q = p) (hs : (k.procs p).handled = some sigContinue)
      (hp : k.procTable (k.procs p).ppid = .proc p) :
      Signalled k p q { k.procs q with state := .waiting, cause := .continued }
  | woken (hq : q ≠ p)
      (hs : (k.procs p).handled = some sigAbort ∨ (k.procs p).handled = some sigStop)
      (hon : k.OnQueue p (.nextWaitQ q)) : Signalled k p q { k.procs q with state := .ready }
  | parent (hq : q ≠ p) (hs : (k.procs p).handled = some sigContinue)
      (hp : k.procTable (k.procs p).ppid = .proc q) :
      Signalled k p q { k.procs q with state := .waiting, cause := .continued }

theorem Woken.signalled {S : WNode → Prop} (h : Woken S k k₁) (q : ProcId) :
  k₁.procs q = k.procs q ∨ (S (.nextWaitQ q) ∧ k₁.procs q = { k.procs q with state := .ready })
  := by
  obtain ⟨waits, procs, rfl, hprocs⟩ := h
  exact hprocs q

/-- What is set in a process after `wakeWaiting` may have made it ready. -/
theorem Woken.set_state {S : WNode → Prop} (h : Woken S k k₁) (q : ProcId) (s : ProcState) :
  { k₁.procs q with state := s } = { k.procs q with state := s }
  := by
  rcases h.signalled q with hq | ⟨-, hq⟩
  · rw [hq]
  · rw [hq]

/-- What a process that is aborted or stopped does to the process `q`. -/
theorem Woken.signalled_setProc {s : ProcState} (h : Woken (k.OnQueue p) k k₁)
    (hs : (k.procs p).handled = some sigAbort ∨ (k.procs p).handled = some sigStop)
    (hafter : (k.procs p).after = s) (q : ProcId) :
  Signalled k p q ((k₁.setProc p fun r => { r with state := s }).procs q)
  := by
  by_cases hq : q = p
  · have hself := Signalled.self (k := k) hq
    rw [hq, hafter] at hself
    rw [hq, Kernel.setProc_self, h.set_state p]
    exact hself
  · rw [Kernel.setProc_of_ne hq]
    rcases h.signalled q with hsame | ⟨hon, hready⟩
    · rw [hsame]
      exact .same hq
    · rw [hready]
      exact .woken hq hs hon

theorem Handled.signalled (h : Handled k p k') (q : ProcId) :
  Signalled k p q (k'.procs q)
  := by
  cases h with
  | abort hs hw =>
      exact (wakeWaiting_woken hw).signalled_setProc (.inl hs) (by rw [Proc.after, if_pos hs]) q
  | stop hs hw =>
      have hafter : (k.procs p).after = .stopped := by
        rw [Proc.after, if_neg (by rw [hs]; decide), if_pos hs]
      exact (wakeWaiting_woken hw).signalled_setProc (.inr hs) hafter q
  | @continued parent hs hp =>
      by_cases hq : q = p
      · subst hq
        by_cases hpar : q = parent
        · subst hpar
          rw [Kernel.setProc_self, Kernel.setWaits_procs, Kernel.setProc_self]
          exact .selfParent rfl hs hp
        · have hself := Signalled.self (k := k) (p := q) (q := q) rfl
          rw [Proc.after, if_neg (by rw [hs]; decide), if_neg (by rw [hs]; decide),
            if_neg (by rw [hs]; decide)] at hself
          rw [Kernel.setProc_of_ne hpar, Kernel.setWaits_procs, Kernel.setProc_self]
          exact hself
      · by_cases hpar : q = parent
        · subst hpar
          rw [Kernel.setProc_self, Kernel.setWaits_procs, Kernel.setProc_of_ne hq]
          exact .parent hq hs hp
        · rw [Kernel.setProc_of_ne hpar, Kernel.setWaits_procs, Kernel.setProc_of_ne hq]
          exact .same hq
  | alarm hs =>
      by_cases hq : q = p
      · subst hq
        have hself := Signalled.self (k := k) (p := q) (q := q) rfl
        rw [Proc.after, if_neg (by rw [hs]; decide), if_neg (by rw [hs]; decide),
          if_neg (by rw [hs]; decide)] at hself
        rw [Kernel.setProc_self]
        exact hself
      · rw [Kernel.setProc_of_ne hq]
        exact .same hq
  | none hs =>
      by_cases hq : q = p
      · subst hq
        have hself := Signalled.self (k := k) (p := q) (q := q) rfl
        rw [Proc.after, if_neg (by rw [hs]; decide), if_neg (by rw [hs]; decide),
          if_pos hs] at hself
        exact hself
      · exact .same hq

/-! ### Steps -/

/-- The signals of `p` are handled in the step. -/
def Handles (k : Kernel) (e : Event) (p : ProcId) : Prop :=
  (e = .preempt ∧ k.rp = .proc p) ∨
    (e = .dispatch ∧ k.rp = .bad ∧ (∃ save, k.scan = some (.proc p, save)) ∧
      (k.procs p).state ≠ .dead)

/-- The process whose signals are handled in a step. -/
def Kernel.handles (k : Kernel) : Event → Option ProcId
  | .preempt =>
    match k.rp with
    | .proc p => some p
    | _ => none
  | .dispatch =>
    match k.rp, k.scan with
    | .bad, some (.proc p, _) => if (k.procs p).state = .dead then none else some p
    | _, _ => none
  | _ => none

theorem handles_eq (h : Handles k e p) :
  k.handles e = some p
  := by
  rcases h with ⟨rfl, hr⟩ | ⟨rfl, hr, ⟨save, hs⟩, hd⟩
  · simp only [Kernel.handles, hr]
  · simp only [Kernel.handles, hr, hs, if_neg hd]

theorem Handles.alive (h : Handles k .dispatch p) :
  (k.procs p).state ≠ .dead
  := by
  rcases h with ⟨hev, -⟩ | ⟨-, -, -, hnd⟩
  · cases hev
  · exact hnd

/-- `wakeWaiting(p)` runs in the step. -/
def Wakes (k : Kernel) (e : Event) (p : ProcId) : Prop :=
  (e = .exit ∧ Executes k p) ∨
    (Handles k e p ∧
      ((k.procs p).handled = some sigAbort ∨ (k.procs p).handled = some sigStop))

/-- The process `p` is made of a structure of the free list in the step. -/
def Spawns (k : Kernel) (e : Event) (p : ProcId) : Prop :=
  ∃ tty, e = .exec tty ∧ k.freelist.next .head = .proc p

/-- A process is started. -/
def starts : Event → Bool
  | .exec _ => true
  | _ => false

theorem not_spawns (h : starts e = false) :
  ¬ Spawns k e p
  := by
  rintro ⟨tty, rfl, -⟩
  cases h

/-- The process `p` is recycled in the step. -/
def Recycles (k : Kernel) (e : Event) (p : ProcId) : Prop :=
  e = .dispatch ∧ k.rp = .bad ∧ (∃ save, k.scan = some (.proc p, save)) ∧
    (k.procs p).state = .dead

/-- A step in which a process is recycled takes it off the run queue, and the loop of the scheduler
goes on behind it. -/
theorem Effect.recycles (h : Effect k e k') (hr : Recycles k e p) :
  ∃ save groups, k.scan = some (.proc p, save) ∧
    k' = ((k.setRunQ (Links.unlink .null (.proc p))).recycled p groups).advanced save
  := by
  obtain ⟨rfl, -, ⟨save, hs⟩, hd⟩ := hr
  cases h with
  | start hrp hsc => exact absurd (hsc.symm.trans hs) nofun
  | idle hrp hsc => exact absurd (hsc.symm.trans hs) nofun
  | stop hrp hsc => exact absurd (hsc.symm.trans hs) nofun
  | skip hrp hsc hd' =>
      cases hsc.symm.trans hs
      exact absurd hd hd'
  | run hrp hsc hd' =>
      cases hsc.symm.trans hs
      exact absurd hd hd'
  | @recycle p' save' groups hrp hsc hd' =>
      cases hsc.symm.trans hs
      exact ⟨save, groups, hs, rfl⟩

/-- The steps of a process in which only its descriptors, its mask and its point in the code
change. -/
inductive Own (k : Kernel) (q : ProcId) : Event → (Nat → Option Nat) → BitVec 32 → Ctl → Prop where
  | sleep {millis : BitVec 32} {opens : Bool} {fd : Nat} (hc : (k.procs q).ctl = .user)
      (hd : (k.procs q).descriptorTable fd = none) :
      Own k q (.sleep millis opens)
        (Function.update (k.procs q).descriptorTable fd (some k.allocated))
        (k.procs q).sigMask (.armed fd)
  | openFile {opens : Bool} {fd : Nat} (hc : (k.procs q).ctl = .user)
      (hd : (k.procs q).descriptorTable fd = none) :
      Own k q (.openFile opens)
        (Function.update (k.procs q).descriptorTable fd (some k.allocated))
        (k.procs q).sigMask .user
  | closeFile {fd portal : Nat} (hc : (k.procs q).ctl = .user)
      (hd : (k.procs q).descriptorTable fd = some portal) :
      Own k q (.closeFile fd) (k.procs q).descriptorTable (k.procs q).sigMask (.closing fd)
  | closing {fd : Nat} (hc : (k.procs q).ctl = .closing fd) :
      Own k q .resume (Function.update (k.procs q).descriptorTable fd none)
        (k.procs q).sigMask .user
  | armed {fd portal : Nat} (hc : (k.procs q).ctl = .armed fd)
      (hd : (k.procs q).descriptorTable fd = some portal) :
      Own k q .resume (k.procs q).descriptorTable (k.procs q).sigMask (.disarming fd)
  | armedNone {fd : Nat} (hc : (k.procs q).ctl = .armed fd) :
      Own k q .resume (k.procs q).descriptorTable (k.procs q).sigMask .asleep
  | disarming {fd : Nat} (hc : (k.procs q).ctl = .disarming fd) :
      Own k q .resume (Function.update (k.procs q).descriptorTable fd none)
        (k.procs q).sigMask .asleep
  | mask {e : Event} {m : BitVec 32} (hc : (k.procs q).ctl = .user)
      (he : (∃ n, e = .mask n) ∨ (∃ n, e = .block n) ∨ ∃ n, e = .unblock n) :
      Own k q e (k.procs q).descriptorTable m .user
  | exitUnlink (hc : (k.procs q).ctl = .unlink) :
      Own k q .exit (k.procs q).descriptorTable (k.procs q).sigMask (.free 0)
  | exitFree {i : Nat} (hc : (k.procs q).ctl = .free i) (hi : i < maxFd) :
      Own k q .exit (k.procs q).descriptorTable (k.procs q).sigMask (.free (i + 1))

/-- The step does not come to the process `q` by itself. -/
structure Untouched (k : Kernel) (e : Event) (q : ProcId) : Prop where
  handles : ¬ Handles k e q
  spawns : ¬ Spawns k e q
  recycles : ¬ Recycles k e q
  rings : e = .alarms → ¬ k.Rings q k.alarms

/-- What a step from `k` to `k'` may do to the process `q`. -/
inductive Change (k : Kernel) (e : Event) (k' : Kernel) (q : ProcId) : Proc → Prop where
  | same (h : Untouched k e q) : Change k e k' q (k.procs q)
  | spawn {d : Nat → Option Nat} {tty : Int} (hs : Spawns k e q)
      (hd : d = (k.procs q).descriptorTable ∨
        ∃ fd, (k.procs q).descriptorTable fd = none ∧
          d = Function.update (k.procs q).descriptorTable fd (some (k.allocated + 1))) :
      Change k e k' q
        { (k.taken q).procs q with
          descriptorTable := d
          tty := tty
          ctl := .user
          state := .ready }
  | waitpid {p : ProcId} {pid : Int} (he : e = .waitpid pid) (hr : Executes k q) (h₀ : 0 ≤ pid)
      (h₁ : pid ≤ maxProc) (hp : k.procTable pid = .proc p) (hy : k'.pendsv = true) :
      Change k e k' q { k.procs q with state := .waiting, cause := .waitpid }
  | own {d : Nat → Option Nat} {m : BitVec 32} {c : Ctl} (hr : Runs k q) (h : Own k q e d m c) :
      Change k e k' q { k.procs q with descriptorTable := d, sigMask := m, ctl := c }
  | asleep (he : e = .resume) (hr : Runs k q) (hc : (k.procs q).ctl = .asleep)
      (hy : k'.pendsv = true) :
      Change k e k' q { k.procs q with state := .waiting, cause := .sleep, ctl := .user }
  | exitWake {s : ProcState} (he : e = .exit) (hr : Executes k q)
      (hs : s = (k.procs q).state ∨ (s = .ready ∧ k.OnQueue q (.nextWaitQ q))) :
      Change k e k' q { k.procs q with state := s, ctl := .unlink }
  | exitDead {i : Nat} (he : e = .exit) (hr : Runs k q) (hc : (k.procs q).ctl = .free i)
      (hi : ¬ i < maxFd) : Change k e k' q { k.procs q with state := .dead, ctl := .yield }
  | woken {p : ProcId} (hw : Wakes k e p) (hq : q ≠ p) (hon : k.OnQueue p (.nextWaitQ q)) :
      Change k e k' q { k.procs q with state := .ready }
  | parent {p : ProcId} (hh : Handles k e p) (hq : q ≠ p) (hs : (k.procs p).handled = some sigContinue)
      (hp : k.procTable (k.procs p).ppid = .proc q) :
      Change k e k' q { k.procs q with state := .waiting, cause := .continued }
  | post {pid : Int} {signal : BitVec 32} (he : e = .post pid signal) (h₀ : 0 ≤ pid)
      (h₁ : pid ≤ maxProc) (hp : k.procTable pid = .proc q) :
      Change k e k' q { k.procs q with
        sigPending := (k.procs q).sigPending ||| (signal &&& ~~~ (k.procs q).sigMask) }
  | alarm (he : e = .alarms) (hr : k.Rings q k.alarms) :
      Change k e k' q { k.procs q with
        sigPending := (k.procs q).sigPending ||| (sigAlarm &&& ~~~ (k.procs q).sigMask) }
  | preempt {x : Proc} (he : e = .preempt) (hr : k.rp = .proc q) (hw : k.switching = false)
      (hx : Signalled (k.paused q) q q x) : Change k e k' q x
  | left (he : e = .leave) (hr : k.rp = .proc q) (hw : k.switching = true) :
      Change k e k' q { k.procs q with sigPending := 0 }
  | recycled (hr : Recycles k e q) :
      Change k e k' q { k.procs q with
        state := .dead
        descriptorTable := fun _ => none
        sigPending := 0
        sigMask := 0
        pgrp := none
        ppid := 0 }
  | skip {x : Proc} (hh : Handles k e q) (he : e = .dispatch) (hx : Signalled k q q x)
      (hn : x.state ≠ .ready) : Change k e k' q { x with sigPending := 0 }
  | run {x : Proc} (hh : Handles k e q) (he : e = .dispatch) (hx : Signalled k q q x)
      (hn : x.state = .ready) : Change k e k' q { x with sigPending := 0, state := .running }

theorem not_handles (hp : e ≠ .preempt) (hd : e ≠ .dispatch) :
  ¬ Handles k e q
  := by
  rintro (⟨he, -⟩ | ⟨he, -⟩)
  · exact hp he
  · exact hd he

/-- The event concerns the running process, or the process it names, and starts no process. -/
def Event.Local : Event → Prop
  | .exec _ | .alarms | .preempt | .dispatch => False
  | _ => True

/-- Such an event comes to no other process. -/
theorem Event.Local.untouched (he : e.Local) (q : ProcId) :
  Untouched k e q
  := by
  refine ⟨not_handles ?_ ?_, ?_, ?_, ?_⟩
  · rintro rfl
    exact he
  · rintro rfl
    exact he
  · rintro ⟨tty, rfl, -⟩
    exact he
  · rintro ⟨rfl, -⟩
    exact he
  · rintro rfl
    exact he.elim

/-- The scheduler comes to the process that ran. -/
theorem untouched_preempt (hr : k.rp ≠ .proc q) :
  Untouched k .preempt q
  := by
  refine ⟨?_, ?_, ?_, nofun⟩
  · rintro (⟨-, hq⟩ | ⟨he, -⟩)
    · exact hr hq
    · cases he
  · rintro ⟨tty, he, -⟩
    cases he
  · rintro ⟨he, -⟩
    cases he

/-- The scheduler comes to one entry of the run queue at a time. -/
theorem untouched_dispatch (hs : ∀ save, k.scan ≠ some (.proc q, save)) :
  Untouched k .dispatch q
  := by
  refine ⟨?_, ?_, ?_, nofun⟩
  · rintro (⟨he, -⟩ | ⟨-, -, ⟨save, hq⟩, -⟩)
    · cases he
    · exact hs save hq
  · rintro ⟨tty, he, -⟩
    cases he
  · rintro ⟨-, -, ⟨save, hq⟩, -⟩
    exact hs save hq

/-- A step that changes one process. -/
theorem change_update {x : Proc} (hp : k'.procs = Function.update k.procs r x)
    (hx : Change k e k' r x) (he : e.Local) (q : ProcId) :
  Change k e k' q (k'.procs q)
  := by
  rw [hp]
  by_cases hq : q = r
  · rw [hq, Function.update_self]
    exact hx
  · rw [Function.update_of_ne hq]
    exact .same (he.untouched q)

/-- A step that changes no process. -/
theorem change_same (hp : k'.procs = k.procs) (he : e.Local) (q : ProcId) :
  Change k e k' q (k'.procs q)
  := by
  rw [hp]
  exact .same (he.untouched q)

theorem change_exitWake (hr : Executes k r) (hw : Woken (k.OnQueue r) k k₁) (q : ProcId) :
  Change k .exit (k₁.setProc r fun q => { q with ctl := .unlink }) q
    ((k₁.setProc r fun q => { q with ctl := .unlink }).procs q)
  := by
  by_cases hq : q = r
  · subst hq
    rw [Kernel.setProc_self]
    rcases hw.signalled q with hsame | ⟨hon, hready⟩
    · rw [hsame]
      exact .exitWake rfl hr (.inl rfl)
    · rw [hready]
      exact .exitWake rfl hr (.inr ⟨rfl, hon⟩)
  · rw [Kernel.setProc_of_ne hq]
    rcases hw.signalled q with hsame | ⟨hon, hready⟩
    · rw [hsame]
      exact .same (Event.Local.untouched (by trivial) q)
    · rw [hready]
      exact .woken (.inl ⟨rfl, hr⟩) hq hon

/-- The handling of signals changes another process. -/
theorem Signalled.change {x : Proc} (h : Signalled k p q x) (hh : Handles k e p) (hq : q ≠ p)
    (hn : Untouched k e q) :
  Change k e k' q x
  := by
  cases h with
  | same => exact .same hn
  | self hself => exact absurd hself hq
  | selfParent hself => exact absurd hself hq
  | woken _ hs hon => exact .woken (.inr ⟨hh, hs⟩) hq hon
  | parent _ hs hp => exact .parent hh hq hs hp

theorem Kernel.paused_of_ne (h : q ≠ p) (k : Kernel) :
  (k.paused p).procs q = k.procs q
  := by
  rw [Kernel.paused]
  split
  · exact Kernel.setProc_of_ne h _ _
  · rfl

/-- That a process pauses changes only its state. -/
theorem Kernel.paused_self (p : ProcId) (k : Kernel) :
  (k.paused p).waits = k.waits ∧ (k.paused p).procTable = k.procTable ∧
    (((k.paused p).procs p).handled = (k.procs p).handled ∧
      ((k.paused p).procs p).ppid = (k.procs p).ppid)
  := by
  rw [Kernel.paused]
  split
  · refine ⟨rfl, rfl, ?_⟩
    rw [Kernel.setProc_self]
    exact ⟨rfl, rfl⟩
  · exact ⟨rfl, rfl, rfl, rfl⟩

/-- The signals of the process that ran change another process as they do before it pauses. -/
theorem Signalled.unpause {x : Proc} (h : Signalled (k.paused p) p q x) (hq : q ≠ p) :
  Signalled k p q x
  := by
  obtain ⟨hw, ht, hs, hpp⟩ := Kernel.paused_self p k
  cases h with
  | same =>
      rw [Kernel.paused_of_ne hq]
      exact .same hq
  | self hself => exact absurd hself hq
  | selfParent hself => exact absurd hself hq
  | woken _ hsig hon =>
      rw [Kernel.paused_of_ne hq]
      rw [hs] at hsig
      rw [Kernel.OnQueue, hw] at hon
      exact .woken hq hsig hon
  | parent _ hsig hp =>
      rw [Kernel.paused_of_ne hq]
      rw [hs] at hsig
      rw [ht, hpp] at hp
      exact .parent hq hsig hp

theorem Kernel.taken_descriptorTable (p : ProcId) (k : Kernel) :
  ((k.taken p).procs p).descriptorTable = (k.procs p).descriptorTable
  := by
  rw [Kernel.taken]
  dsimp only
  rw [Function.update_self]

/-- The kernel after a process was made and put on the run queue. -/
theorem change_queued {tty : Bool} {t : Int} {x : Proc} (hf : k.freelist.next .head = .proc p)
    (hp : k₁.procs = Function.update (k.taken p).procs p x)
    (hx : x = { (k.taken p).procs p with descriptorTable := x.descriptorTable })
    (hd : x.descriptorTable = (k.procs p).descriptorTable ∨
      ∃ fd, (k.procs p).descriptorTable fd = none ∧
        x.descriptorTable =
          Function.update (k.procs p).descriptorTable fd (some (k.allocated + 1)))
    (q : ProcId) :
  Change k (.exec tty) (k₁.queued p t) q ((k₁.queued p t).procs q)
  := by
  by_cases hq : q = p
  · subst hq
    have hself : (k₁.queued q t).procs q =
        { k₁.procs q with tty := t, ctl := .user, state := .ready } :=
      Function.update_self _ _ _
    rw [hself, hp, Function.update_self, hx]
    exact .spawn ⟨tty, rfl, hf⟩ hd
  · have hother : (k₁.queued p t).procs q = k₁.procs q := Function.update_of_ne hq _ _
    rw [hother, hp, Function.update_of_ne hq]
    have hsame : (k.taken p).procs q = k.procs q := Function.update_of_ne hq _ _
    rw [hsame]
    refine .same ⟨not_handles nofun nofun, ?_, ?_, nofun⟩
    · rintro ⟨_, -, hf'⟩
      rw [hf] at hf'
      cases hf'
      exact hq rfl
    · rintro ⟨he, -⟩
      cases he

theorem Kernel.reset_self (p : ProcId) (k : Kernel) :
  (k.reset p).procs p = { k.procs p with sigPending := 0 }
  := Kernel.setProc_self _ _ _

theorem Kernel.reset_of_ne (h : q ≠ p) (k : Kernel) :
  (k.reset p).procs q = k.procs q
  := Kernel.setProc_of_ne h _ _

theorem Kernel.started_self (p : ProcId) (k : Kernel) :
  (k.started p).procs p = { k.procs p with state := .running }
  := by
  rw [Kernel.started, Kernel.setProc_self]
  rfl

theorem Kernel.started_of_ne (h : q ≠ p) (k : Kernel) :
  (k.started p).procs q = k.procs q
  := by
  rw [Kernel.started, Kernel.setProc_of_ne h]
  rfl

/-- A step in which a process stays in its own code. -/
theorem change_user {d : Nat → Option Nat} {m : BitVec 32} (hr : Executes k q)
    (h : Own k q e d m .user) :
  Change k e k' q { k.procs q with descriptorTable := d, sigMask := m }
  := by
  have hown : Change k e k' q { k.procs q with descriptorTable := d, sigMask := m, ctl := .user } :=
    .own hr.toRuns h
  rw [← hr.ctl] at hown
  exact hown

/-- What a step does to a process. -/
theorem Effect.change (h : Effect k e k') (q : ProcId) :
  Change k e k' q (k'.procs q)
  := by
  cases h with
  | @exec p r tty hr hf h₀ ht =>
      refine change_queued (x := (k.taken p).procs p) hf ?_ rfl
        (.inl (Kernel.taken_descriptorTable p k)) q
      rw [Function.update_eq_self]
  | @execOpen p r tty fd hr hf h₀ ht hd =>
      rw [Kernel.taken_descriptorTable] at hd
      refine change_queued hf rfl rfl (.inr ⟨fd, hd, ?_⟩) q
      change Function.update ((k.taken p).procs p).descriptorTable _ _ = _
      rw [Kernel.taken_descriptorTable]
      rfl
  | waitpid hr h₀ h₁ ha hp =>
      exact change_update rfl (.waitpid rfl hr h₀ h₁ hp rfl) trivial q
  | waitpidNone => exact change_same (by rfl) (by trivial) q
  | @sleep r millis opens fd hr hd =>
      have htwice : (k.opened r fd).procs = Function.update k.procs r
          { k.procs r with
            descriptorTable := Function.update (k.procs r).descriptorTable fd
              (some k.allocated) } := rfl
      refine change_update ?_ (.own hr.toRuns (.sleep hr.ctl hd)) trivial q
      change Function.update (k.opened r fd).procs r
        { (k.opened r fd).procs r with ctl := .armed fd } = _
      rw [htwice, Function.update_idem, Function.update_self]
  | sleepNone => exact change_same (by rfl) (by trivial) q
  | openFile hr hd =>
      exact change_update rfl (change_user hr (.openFile hr.ctl hd)) trivial q
  | openFileNone => exact change_same (by rfl) (by trivial) q
  | closeFile hr hd =>
      exact change_update rfl (.own hr.toRuns (.closeFile hr.ctl hd)) trivial q
  | closeFileNone => exact change_same (by rfl) (by trivial) q
  | closing hr hc => exact change_update rfl (.own hr (.closing hc)) trivial q
  | armed hr hc hd => exact change_update rfl (.own hr (.armed hc hd)) trivial q
  | armedNone hr hc => exact change_update rfl (.own hr (.armedNone hc)) trivial q
  | disarming hr hc => exact change_update rfl (.own hr (.disarming hc)) trivial q
  | asleep hr hc => exact change_update rfl (.asleep rfl hr hc rfl) trivial q
  | resumeNone => exact change_same (by rfl) (by trivial) q
  | mask hr =>
      exact change_update rfl (change_user hr (.mask hr.ctl (.inl ⟨_, rfl⟩))) trivial q
  | block hr =>
      exact change_update rfl (change_user hr (.mask hr.ctl (.inr (.inl ⟨_, rfl⟩)))) trivial q
  | unblock hr =>
      exact change_update rfl (change_user hr (.mask hr.ctl (.inr (.inr ⟨_, rfl⟩)))) trivial q
  | exitWake hr hc hw => exact change_exitWake ⟨hr, hc⟩ (wakeWaiting_woken hw) q
  | exitUnlink hr hc => exact change_update rfl (.own hr (.exitUnlink hc)) trivial q
  | exitFree hr hc hi => exact change_update rfl (.own hr (.exitFree hc hi)) trivial q
  | exitDead hr hc hi => exact change_update rfl (.exitDead rfl hr hc hi) trivial q
  | exitYield => exact change_same (by rfl) (by trivial) q
  | exitNone => exact change_same (by rfl) (by trivial) q
  | post hs h₀ h₁ hp => exact change_update rfl (.post rfl h₀ h₁ hp) trivial q
  | postNone => exact change_same (by rfl) (by trivial) q
  | alarms hs =>
      change Change k .alarms _ q ((k.rung k.alarms).procs q)
      by_cases hq : k.Rings q k.alarms
      · rw [Kernel.rung_of_rings hq]
        exact .alarm rfl hq
      · rw [Kernel.rung_of_not hq]
        refine .same ⟨not_handles nofun nofun, ?_, ?_, fun _ => hq⟩
        · rintro ⟨tty, he, -⟩
          cases he
        · rintro ⟨he, -⟩
          cases he
  | tick => exact change_same (by rfl) (by trivial) q
  | @preempt r k₁ hr hw hh =>
      have hsig := (handleSignals_handled hh).signalled q
      by_cases hq : q = r
      · subst hq
        exact .preempt rfl hr hw hsig
      · refine (hsig.unpause hq).change (.inl ⟨rfl, hr⟩) hq (untouched_preempt ?_)
        intro hrq
        rw [hr] at hrq
        cases hrq
        exact hq rfl
  | preemptNone hr hw =>
      refine .same (untouched_preempt ?_)
      rw [hr]
      nofun
  | leave hr hw => exact change_update rfl (.left rfl hr hw) trivial q
  | leaveNone => exact change_same (by rfl) (by trivial) q
  | start hr hs hn =>
      refine .same (untouched_dispatch ?_)
      intro save
      rw [hs]
      nofun
  | idle hr hs hn =>
      refine .same (untouched_dispatch ?_)
      intro save
      rw [hs]
      nofun
  | stop hr hs =>
      refine .same (untouched_dispatch ?_)
      intro save
      rw [hs]
      nofun
  | @recycle p save groups hr hs hd =>
      by_cases hq : q = p
      · subst hq
        have hself : ((((k.setRunQ (Links.unlink .null (.proc q))).recycled q
            groups).advanced save).procs q) = _ := Function.update_self q _ _
        rw [hself]
        exact .recycled ⟨rfl, hr, ⟨save, hs⟩, hd⟩
      · have hother : ((((k.setRunQ (Links.unlink .null (.proc p))).recycled p
            groups).advanced save).procs q) = k.procs q := Function.update_of_ne hq _ _
        rw [hother]
        refine .same (untouched_dispatch ?_)
        intro save' hsq
        rw [hs] at hsq
        cases hsq
        exact hq rfl
  | @skip p save k₁ hr hs hd hh hn =>
      have hsig := (handleSignals_handled hh).signalled q
      have hp : Handles k .dispatch p := .inr ⟨rfl, hr, ⟨save, hs⟩, hd⟩
      by_cases hq : q = p
      · subst hq
        change Change k .dispatch _ q ((k₁.reset q).procs q)
        rw [Kernel.reset_self]
        exact .skip hp rfl hsig hn
      · change Change k .dispatch _ q ((k₁.reset p).procs q)
        rw [Kernel.reset_of_ne hq]
        refine hsig.change hp hq (untouched_dispatch ?_)
        intro save' hsq
        rw [hs] at hsq
        cases hsq
        exact hq rfl
  | @run p save k₁ hr hs hd hh hn =>
      have hsig := (handleSignals_handled hh).signalled q
      have hp : Handles k .dispatch p := .inr ⟨rfl, hr, ⟨save, hs⟩, hd⟩
      by_cases hq : q = p
      · subst hq
        rw [Kernel.started_self, Kernel.reset_self]
        exact .run (x := k₁.procs q) hp rfl hsig hn
      · rw [Kernel.started_of_ne hq, Kernel.reset_of_ne hq]
        refine hsig.change hp hq (untouched_dispatch ?_)
        intro save' hsq
        rw [hs] at hsq
        cases hsq
        exact hq rfl

end Process
