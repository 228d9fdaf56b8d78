import Manos.Process.Lock
import Manos.Process.Change

/-!
# The lock of the run queue

The kernel together with `runQLock`, which `ps` holds while it goes through the run queue and
`schedProc` while it adds a process.  The scheduler calls the functions of the lock with
`rp = &badProc`, where they do nothing: the run queue is left alone as long as no scheduler pass
begins while a process holds the lock.
-/

namespace Process

open Exec

/-! ### The kernel with the lock -/

/-- The code that takes the lock. -/
inductive Use where
  /-- `ps` -/
  | ps
  /-- `schedProc`, with a portal for the console if `tty` holds -/
  | schedProc (tty : Bool)
deriving DecidableEq

/-- Where a process is in the code that takes the lock. -/
inductive Role where
  /-- not in such code -/
  | user
  /-- in the loop of `syslock` -/
  | locking (use : Use)
  /-- after `syslock`; `schedProc` is before its critical region -/
  | holding (use : Use)
  /-- in `schedProc`, after its critical region -/
  | added
deriving DecidableEq

/-- The process is between `syslock` and `sysunlock`. -/
def Role.holds : Role → Bool
  | user => false
  | locking _ => false
  | holding _ => true
  | added => true

/-- The kernel, the lock, and where the processes are. -/
structure Locked where
  kernel : Kernel
  lock : Lock
  role : ProcId → Role

/-- What the functions of the lock read of `*rp`. -/
def Kernel.lockProc (k : Kernel) : Option LockProc :=
  match k.rp with
  | .null => none
  | .bad => some ⟨-1, true⟩
  | .proc r => some ⟨(k.procs r).pid, (k.procs r).state = .dead⟩

/-- The event is a part of the code of the running process. -/
def Event.own : Event → Bool
  | exec _ => true
  | waitpid _ => true
  | sleep _ _ => true
  | openFile _ => true
  | closeFile _ => true
  | resume => true
  | mask _ => true
  | block _ => true
  | unblock _ => true
  | exit => true
  | post _ _ => false
  | alarms => false
  | tick => false
  | preempt => false
  | leave => false
  | dispatch => false

/-- What happens next. -/
inductive LockedEvent where
  /-- anything that does not take the lock -/
  | kernel (e : Event)
  /-- the running process calls `syslock` -/
  | lock (use : Use)
  /-- the running process is in the critical region of `syslock` -/
  | turn
  /-- the critical region of `schedProc` -/
  | add
  /-- the running process calls `sysunlock` -/
  | unlock

variable {s s' : Locked} {k k' : Kernel} {r : ProcId}

/--
The steps of the kernel with the lock.  The scheduler runs between the calls of `syslock` and
`sysunlock` of `nextRunnableProc`, which do nothing there, see `scheduler_noLock`.
-/
inductive LockedStep (s : Locked) : LockedEvent → Locked → Prop where
  | kernel {e : Event} {k' : Kernel} (he : ∀ tty, e ≠ .exec tty)
      (hown : e.own = true → ∀ r, s.kernel.rp = .proc r → s.role r = .user)
      (h : Step s.kernel e k') :
      LockedStep s (.kernel e) { s with kernel := k' }
  | lock {r : ProcId} {use : Use} {goesOn : Bool} {l : Lock} (hr : Executes s.kernel r)
      (hrole : s.role r = .user) (hrun : syslock s.kernel.lockProc s.lock = .done goesOn l) :
      LockedStep s (.lock use)
        ⟨s.kernel, l, Function.update s.role r (if goesOn then .locking use else .holding use)⟩
  | taken {r : ProcId} {use : Use} {p : LockProc} {l : Lock} (hr : Executes s.kernel r)
      (hrole : s.role r = .locking use) (hp : s.kernel.lockProc = some p)
      (hrun : syslockTurn p s.lock = .done true l) :
      LockedStep s .turn ⟨s.kernel, l, Function.update s.role r (.holding use)⟩
  | busy {r : ProcId} {use : Use} {p : LockProc} {l : Lock} (hr : Executes s.kernel r)
      (hrole : s.role r = .locking use) (hp : s.kernel.lockProc = some p)
      (hrun : syslockTurn p s.lock = .done false l) :
      -- the process yields before it leaves the critical region
      LockedStep s .turn ⟨{ s.kernel with pendsv := true }, l, s.role⟩
  | add {r p : ProcId} {tty : Bool} {k' : Kernel} (hr : Executes s.kernel r)
      (hrole : s.role r = .holding (.schedProc tty)) (h : schedProc tty s.kernel = .done p k') :
      LockedStep s .add
        ⟨k', s.lock, Function.update (Function.update s.role r .added) p .user⟩
  | unlock {r : ProcId} {l : Lock} (hr : Executes s.kernel r)
      (hrole : s.role r = .holding .ps ∨ s.role r = .added)
      (hrun : sysunlock s.kernel.lockProc s.lock = .done () l) :
      LockedStep s .unlock ⟨s.kernel, l, Function.update s.role r .user⟩

/-- The process whose code a step is a part of. -/
def Locked.actor (s : Locked) (e : LockedEvent) : Option ProcId :=
  match e, s.kernel.rp with
  | .kernel e, .proc r => if e.own then some r else none
  | .lock _, .proc r => some r
  | .turn, .proc r => some r
  | .add, .proc r => some r
  | .unlock, .proc r => some r
  | _, _ => none

/-- The kernel after boot, with a lock that was set up. -/
def Locked.start (k : Kernel) : Locked := ⟨k, initLock, fun _ => .user⟩

/-- Where the scheduler runs, the functions of the lock do nothing. -/
theorem scheduler_noLock (h : k.rp = .bad) (l : Lock) :
  syslock k.lockProc l = .done false l ∧ sysunlock k.lockProc l = .done () l
  := by
  apply syslock_noProc
  rw [Kernel.lockProc, h]
  rfl

/-! ### Steps that leave the running process alone -/

theorem Effect.sameSwitching {e : Event} (h : Effect k e k') (he : e ≠ .preempt) (hl : e ≠ .leave)
    (hd : e ≠ .dispatch) :
  k'.switching = k.switching
  := by
  cases h with
  | exitWake hr hc hw => exact (wakeWaiting_woken hw).still.switching
  | preempt => exact absurd rfl he
  | preemptNone => exact absurd rfl he
  | leave => exact absurd rfl hl
  | leaveNone => exact absurd rfl hl
  | start => exact absurd rfl hd
  | idle => exact absurd rfl hd
  | stop => exact absurd rfl hd
  | recycle => exact absurd rfl hd
  | skip => exact absurd rfl hd
  | run => exact absurd rfl hd
  | _ => rfl

/-- `schedProc` returns to the process that called it. -/
theorem schedProc_runs {tty : Bool} {p : ProcId} (hr : Executes k r)
    (h : schedProc tty k = .done p k') :
  k'.rp = .proc r ∧ k'.switching = false
  := by
  have heffect : Effect k (.exec tty) k' := effect_exec hr h
  have hrp : k'.rp = k.rp := by
    cases heffect with
    | exec => rfl
    | execOpen => rfl
  refine ⟨hrp.trans hr.rp, ?_⟩
  rw [heffect.sameSwitching nofun nofun nofun, hr.switching]

/-! ### Undisturbed runs -/

/-- No scheduler pass begins while a process holds the lock. -/
def Locked.Undisturbed (s : Locked) (e : LockedEvent) : Prop :=
  e = .kernel .preempt → ∀ r, (s.role r).holds = false

/-- A process that holds the lock is running. -/
def Locked.Inv (s : Locked) : Prop :=
  ∀ r, (s.role r).holds = true → s.kernel.rp = .proc r ∧ s.kernel.switching = false

/-- A process that is running changes its place in the code. -/
theorem Locked.Inv.move {l : Lock} {x : Role} (h : s.Inv) (hr : Executes s.kernel r) :
  Locked.Inv ⟨s.kernel, l, Function.update s.role r x⟩
  := by
  intro q hq
  simp only at hq
  by_cases hqr : q = r
  · rw [hqr]
    exact ⟨hr.rp, hr.switching⟩
  · rw [Function.update_of_ne hqr] at hq
    exact h q hq

/-- While a process holds the lock, no step is one of the scheduler. -/
theorem not_scheduler {e : Event} (he : Locked.Undisturbed s (.kernel e)) (hs : Step s.kernel e k')
    (hr : (s.role r).holds = true) (hrp : s.kernel.rp = .proc r)
    (hsw : s.kernel.switching = false) :
  e ≠ .preempt ∧ e ≠ .leave ∧ e ≠ .dispatch
  := by
  refine ⟨?_, ?_, ?_⟩
  · rintro rfl
    rw [he rfl r] at hr
    contradiction
  · rintro rfl
    cases hs with
    | leave hw => exact absurd (hsw.symm.trans hw) Bool.false_ne_true
  · rintro rfl
    cases hs with
    | dispatch hbad => exact absurd (hrp.symm.trans hbad) nofun

/-- A step that meets the condition keeps the invariant. -/
theorem LockedStep.inv {e : LockedEvent} (hs : LockedStep s e s') (he : Locked.Undisturbed s e)
    (h : s.Inv) :
  s'.Inv
  := by
  cases hs with
  | @kernel e k' hne hown hstep =>
      intro r hr
      obtain ⟨hrp, hsw⟩ := h r hr
      obtain ⟨hpreempt, hleave, hdispatch⟩ := not_scheduler he hstep hr hrp hsw
      obtain ⟨-, -, hrp', -⟩ := hstep.effect.places hpreempt hne hleave hdispatch
      exact ⟨hrp'.trans hrp, (hstep.effect.sameSwitching hpreempt hleave hdispatch).trans hsw⟩
  | lock hr hrole hrun => exact h.move hr
  | taken hr hrole hp hrun => exact h.move hr
  | busy hr hrole hp hrun => exact h
  | @add r p tty k' hr hrole hsched =>
      obtain ⟨hrp, hsw⟩ := schedProc_runs hr hsched
      intro q hq
      simp only at hq
      by_cases hqp : q = p
      · rw [hqp, Function.update_self] at hq
        contradiction
      · rw [Function.update_of_ne hqp] at hq
        by_cases hqr : q = r
        · rw [hqr]
          exact ⟨hrp, hsw⟩
        · rw [Function.update_of_ne hqr] at hq
          have hrp' := (h q hq).1
          rw [hr.rp] at hrp'
          cases hrp'
          exact absurd rfl hqr
  | unlock hr hrole hrun => exact h.move hr

/-- In every state of an undisturbed run, a process that holds the lock is running. -/
theorem locked_inv {k₀ : Kernel} (h : Run.Reach LockedStep Locked.Undisturbed (.start k₀) s) :
  s.Inv
  := by
  refine h.invariant (P := Locked.Inv) nofun ?_
  intro t e t' ht he hs
  apply hs.inv he ht

/--
In every run in which no scheduler pass begins while a process holds `runQLock`, every step that
changes the run queue while a process holds the lock is a step of that process.
-/
theorem runQ_protected {k₀ : Kernel} {e : LockedEvent}
    (h : Run.Reach LockedStep Locked.Undisturbed (.start k₀) s) (hs : LockedStep s e s')
    (he : Locked.Undisturbed s e) (hr : (s.role r).holds = true)
    (hq : s'.kernel.runQ ≠ s.kernel.runQ) :
  s.actor e = some r
  := by
  obtain ⟨hrp, hsw⟩ := locked_inv h r hr
  cases hs with
  | @kernel e k' hne hown hstep =>
      refine absurd ?_ hq
      obtain ⟨hpreempt, hleave, hdispatch⟩ := not_scheduler he hstep hr hrp hsw
      exact (hstep.effect.places hpreempt hne hleave hdispatch).1
  | lock hr' hrole hrun => exact absurd rfl hq
  | taken hr' hrole hp hrun => exact absurd rfl hq
  | busy hr' hrole hp hrun => exact absurd rfl hq
  | add hr' hrole hsched =>
      rw [hr'.rp] at hrp
      cases hrp
      simp only [Locked.actor, hr'.rp]
  | unlock hr' hrole hrun => exact absurd rfl hq

/-! ### Computed runs -/

/-- The process that executes code of its own. -/
def Kernel.executor (k : Kernel) : Option ProcId := k.runner.filter fun r => (k.procs r).ctl = .user

/-- The state after an event, if it can happen and its code returns. -/
def Locked.next (s : Locked) : LockedEvent → Option Locked
  | .kernel e =>
    if starts e = false ∧ (e.own = true → ∀ r, s.kernel.rp = .proc r → s.role r = .user) then
      (s.kernel.next e).map fun k => { s with kernel := k }
    else none
  | .lock use => s.kernel.executor.bind fun r =>
    match syslock s.kernel.lockProc s.lock with
    | .done goesOn l =>
      if s.role r = .user then
        some ⟨s.kernel, l, Function.update s.role r (if goesOn then .locking use else .holding use)⟩
      else none
    | .stop _ _ => none
  | .turn => s.kernel.executor.bind fun r =>
    match s.role r, s.kernel.lockProc with
    | .locking use, some p =>
      match syslockTurn p s.lock with
      | .done true l => some ⟨s.kernel, l, Function.update s.role r (.holding use)⟩
      | .done false l => some ⟨{ s.kernel with pendsv := true }, l, s.role⟩
      | .stop _ _ => none
    | _, _ => none
  | .add => s.kernel.executor.bind fun r =>
    match s.role r with
    | .holding (.schedProc tty) =>
      match schedProc tty s.kernel with
      | .done p k => some ⟨k, s.lock, Function.update (Function.update s.role r .added) p .user⟩
      | .stop _ _ => none
    | _ => none
  | .unlock => s.kernel.executor.bind fun r =>
    match sysunlock s.kernel.lockProc s.lock with
    | .done _ l =>
      if s.role r = .holding .ps ∨ s.role r = .added then
        some ⟨s.kernel, l, Function.update s.role r .user⟩
      else none
    | .stop _ _ => none

theorem executor_executes (h : k.executor = some r) :
  Executes k r
  := by
  obtain ⟨hr, hc⟩ := Option.filter_eq_some_iff.mp h
  exact ⟨runner_runs hr, of_decide_eq_true hc⟩

/-- What is computed is a step. -/
theorem lockedStep_of_next {e : LockedEvent} (h : s.next e = some s') :
  LockedStep s e s'
  := by
  cases e with
  | kernel e =>
      obtain ⟨hc, h⟩ := Option.ite_none_right_eq_some.mp h
      obtain ⟨k, hk, rfl⟩ := Option.map_eq_some_iff.mp h
      refine .kernel ?_ hc.2 (next_step hk)
      rintro tty rfl
      cases hc.1
  | lock use =>
      obtain ⟨r, hr, h⟩ := Option.bind_eq_some_iff.mp h
      cases hl : syslock s.kernel.lockProc s.lock with
      | stop f l =>
          rw [hl] at h
          cases h
      | done goesOn l =>
          rw [hl] at h
          obtain ⟨hrole, h⟩ := Option.ite_none_right_eq_some.mp h
          cases h
          exact .lock (executor_executes hr) hrole hl
  | turn =>
      obtain ⟨r, hr, h⟩ := Option.bind_eq_some_iff.mp h
      split at h
      · rename_i use p hrole hp
        split at h
        · rename_i l hl
          cases h
          exact .taken (executor_executes hr) hrole hp hl
        · rename_i l hl
          cases h
          exact .busy (executor_executes hr) hrole hp hl
        · cases h
      · cases h
  | add =>
      obtain ⟨r, hr, h⟩ := Option.bind_eq_some_iff.mp h
      split at h
      · rename_i tty hrole
        split at h
        · rename_i p k hk
          cases h
          exact .add (executor_executes hr) hrole hk
        · cases h
      · cases h
  | unlock =>
      obtain ⟨r, hr, h⟩ := Option.bind_eq_some_iff.mp h
      cases hl : sysunlock s.kernel.lockProc s.lock with
      | stop f l =>
          rw [hl] at h
          cases h
      | done u l =>
          rw [hl] at h
          obtain ⟨hrole, h⟩ := Option.ite_none_right_eq_some.mp h
          cases h
          exact .unlock (executor_executes hr) hrole hl

/-- A step, computed, after a computed run. -/
theorem exists_lockedStep {C : Locked → LockedEvent → Prop} {g : Locked → LockedEvent → Bool}
    {P : Locked → Locked → Bool} (hC : ∀ s e, g s e = true → C s e) (l : List LockedEvent)
    (e : LockedEvent)
    (h : (Run.after Locked.next g (.start booted) l).any
      (fun s => g s e && (s.next e).any (P s)) = true) :
  ∃ s s', Run.Reach LockedStep C (.start booted) s ∧ C s e ∧ LockedStep s e s' ∧ P s s' = true
  := by
  obtain ⟨s, hs, hnext⟩ := (Option.any_eq_true _ _).mp h
  rw [Bool.and_eq_true] at hnext
  obtain ⟨s', hs', hP⟩ := (Option.any_eq_true (P s) _).mp hnext.2
  exact ⟨s, s', Run.after_reaches (fun _ _ _ => lockedStep_of_next) hC hs, hC s e hnext.1,
    lockedStep_of_next hs', hP⟩

/-! ### Runs in which the lock does not protect the queue -/

/-- After these events the first process runs. -/
def toTorgo : List LockedEvent :=
  [.kernel .preempt, .kernel .leave, .kernel .dispatch, .kernel .dispatch]

/-- The first process starts another one: it adds it to the queue while it holds the lock. -/
theorem runQ_protected_add :
  ∃ s s', LockedStep s .add s' ∧ s'.kernel.runQ ≠ s.kernel.runQ ∧ s.actor .add = some 126
  := by
  obtain ⟨s, s', hrun, hk, hstep, hP⟩ := exists_lockedStep (C := Locked.Undisturbed)
    (g := fun s e => match e with
      | .kernel .preempt => ∀ r, (s.role r).holds = false
      | _ => true)
    (P := fun s s' => (s.role 126).holds = true ∧
      s'.kernel.runQ.next .head ≠ s.kernel.runQ.next .head)
    (by
      rintro s e he rfl
      exact of_decide_eq_true he)
    (toTorgo ++ [.lock (.schedProc true), .turn]) .add (by decide +kernel)
  obtain ⟨hholds, hq⟩ := of_decide_eq_true hP
  have hne : s'.kernel.runQ ≠ s.kernel.runQ := fun heq => hq (by rw [heq])
  exact ⟨s, s', hstep, hne, runQ_protected hrun hstep hk hholds hne⟩

/-- The first process starts `ps`, and the clock ticks while `ps` goes through the run queue: the
scheduler puts the process that holds the lock into the queue. -/
theorem runQ_disturbed :
  ¬ ∀ (k₀ : Kernel) (s s' : Locked) (e : LockedEvent) (r : ProcId), Booted k₀ →
    Run.ReachAny LockedStep (.start k₀) s → LockedStep s e s' → (s.role r).holds = true →
      s'.kernel.runQ ≠ s.kernel.runQ → s.actor e = some r
  := by
  intro hclaim
  obtain ⟨s, s', hrun, -, hstep, hP⟩ := exists_lockedStep (C := fun _ _ => True)
    (g := fun _ _ => true)
    (P := fun s s' => (s.role 125).holds = true ∧
      s'.kernel.runQ.prev .head ≠ s.kernel.runQ.prev .head)
    (fun _ _ _ => trivial)
    (toTorgo ++ [.lock (.schedProc true), .turn, .add, .unlock, .kernel (.waitpid 2)] ++ toTorgo ++
      [.lock .ps, .turn, .kernel .preempt]) (.kernel .leave) (by decide +kernel)
  obtain ⟨hholds, hq⟩ := of_decide_eq_true hP
  have hne : s'.kernel.runQ ≠ s.kernel.runQ := fun heq => hq (by rw [heq])
  have hactor := hclaim booted s s' _ 125 booted_booted hrun hstep hholds hne
  have hnone : s.actor (.kernel .leave) = none := by
    rw [Locked.actor.eq_def]
    cases s.kernel.rp with
    | null => rfl
    | bad => rfl
    | proc p => rfl
  rw [hnone] at hactor
  cases hactor

end Process
