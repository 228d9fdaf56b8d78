import Manos.Process.Exits

/-!
# Dead and stopped processes

A dead process stays dead and a stopped one stopped, in runs in which no signal and no
`wakeWaiting` comes to it.  Exits are interrupted: `wakeWaiting` takes a process off the queue some
steps before it makes it ready.
-/

namespace Process

open Exec

variable {k : Kernel} {p q r : ProcId} {e : Event}

namespace Exits

variable {m m' : Exits} {s : ProcState} {signals : Option (BitVec 32) → Prop}

/-! ### The condition -/

/-- The step disturbs no process in the state `s`: of a process in this state only such
signals are handled that satisfy `signals`, `SigContinue` is not handled of a process whose
parent is in this state, and no other process in this state is made ready, neither by the
`wakeWaiting` of a process that is aborted or stopped nor by that of an exit. -/
structure Undisturbed (s : ProcState) (signals : Option (BitVec 32) → Prop) (m : Exits)
    (e : Event) : Prop where
  own : ∀ p, Handles m.kernel e p → (m.kernel.procs p).state = s →
    signals (m.kernel.procs p).handled
  parent : ∀ p q, Handles m.kernel e p → q ≠ p → (m.kernel.procs p).handled = some sigContinue →
    m.kernel.procTable (m.kernel.procs p).ppid = .proc q → (m.kernel.procs q).state ≠ s
  woken : ∀ p q, Handles m.kernel e p → (m.kernel.procs p).handled = some sigAbort ∨
    (m.kernel.procs p).handled = some sigStop → q ≠ p → m.kernel.OnQueue p (.nextWaitQ q) →
      (m.kernel.procs q).state ≠ s
  ready : ∀ q, m.Readies e q → (m.kernel.procs q).state ≠ s

/-- The step disturbs no dead process. -/
def KeepsDead : Exits → Event → Prop :=
  Undisturbed .dead fun s => s = none ∨ s = some sigAbort

/-- The step disturbs no stopped process. -/
def KeepsStopped : Exits → Event → Prop :=
  Undisturbed .stopped fun s => s ≠ some sigAlarm

/-- A step that disturbs no process is one of the kernel that disturbs none, or one of an exit that
leaves the states of such processes as they are. -/
theorem Undisturbed.cases (h : Undisturbed s signals m e) (hs : m.Effect e m') :
  (Process.Effect m.kernel e m'.kernel ∧ Process.Undisturbed s signals m.kernel e) ∨
    ∀ p, (m.kernel.procs p).state = s → (m'.kernel.procs p).state = s
  := by
  rcases hs.kernel with ⟨he, hw⟩ | ⟨r, K, c, -, -, hk⟩ | ⟨q, hq, hk⟩
  · refine .inl ⟨he, h.own, h.parent, ?_⟩
    intro p q hp
    exact h.woken p q (hw p hp).1 (hw p hp).2
  · right
    intro p hp
    rw [hk, Kernel.setWaits_procs, Kernel.setProc_field Proc.state rfl p]
    exact hp
  · right
    intro p hp
    rw [hk]
    have hpq : p ≠ q := by
      rintro rfl
      exact h.ready p hq hp
    rw [Kernel.setProc_of_ne hpq]
    exact hp

/-! ### Dead processes stay dead, stopped ones stopped -/

theorem Ok.dead_step (h : m.Ok) (hk : KeepsDead m e) (hd : (m.kernel.procs p).state = .dead)
    (hs : ¬ Spawns m.kernel e p) (he : m.Effect e m') :
  (m'.kernel.procs p).state = .dead
  := by
  obtain ⟨l, f, h⟩ := h
  rcases hk.cases he with ⟨he, hk⟩ | hstate
  · exact h.dead_change hk hd hs (he.change p)
  · exact hstate p hd

theorem Ok.stopped_step (h : m.Ok) (hk : KeepsStopped m e)
    (hst : (m.kernel.procs p).state = .stopped)
    (hs : Handles m.kernel e p → (m.kernel.procs p).handled ≠ some sigAbort ∧
      (m.kernel.procs p).handled ≠ some sigContinue) (he : m.Effect e m') :
  (m'.kernel.procs p).state = .stopped
  := by
  obtain ⟨l, f, h⟩ := h
  rcases hk.cases he with ⟨he, hk⟩ | hstate
  · exact h.stopped_change hk hst hs (he.change p)
  · exact hstate p hst

/-- The step starts no process and makes none ready that is in the state `s`. A process whose
signals are handled has none to be handled, or it is not in the state `s`, there is no
`SigContinue`, and for `SigAbort` and `SigStop` its queue is empty. -/
def calm (s : ProcState) (m : Exits) (e : Event) : Bool :=
  (m.kernel.handles e).all (fun p => (m.kernel.procs p).handled = none ∨
    ((m.kernel.procs p).state ≠ s ∧ (m.kernel.procs p).handled ≠ some sigContinue ∧
      ((m.kernel.procs p).handled = some sigAlarm ∨ m.links.next (.waitQ p) = .waitQ p))) &&
    (m.readies e).all (fun q => (m.kernel.procs q).state ≠ s) && !starts e

theorem calm_not_spawns (h : m.calm s e = true) (p : ProcId) :
  ¬ Spawns m.kernel e p
  := by
  unfold calm at h
  rw [Bool.and_eq_true, Bool.not_eq_true'] at h
  exact not_spawns h.2

theorem undisturbed_of_calm (h : m.calm s e = true) (hn : signals none) :
  Undisturbed s signals m e
  := by
  unfold calm at h
  rw [Bool.and_eq_true, Bool.and_eq_true, Option.all_eq_true, Option.all_eq_true] at h
  obtain ⟨⟨hhandles, hready⟩, -⟩ := h
  have hcalm : ∀ p, Handles m.kernel e p → (m.kernel.procs p).handled = none ∨
      ((m.kernel.procs p).state ≠ s ∧ (m.kernel.procs p).handled ≠ some sigContinue ∧
        ((m.kernel.procs p).handled = some sigAlarm ∨ m.links.next (.waitQ p) = .waitQ p)) :=
    fun p hp => of_decide_eq_true (hhandles p (handles_eq hp))
  constructor
  · intro p hp hs
    rcases hcalm p hp with hnone | ⟨hne, -⟩
    · rw [hnone]
      exact hn
    · exact absurd hs hne
  · intro p q hp _ hs
    rcases hcalm p hp with hnone | ⟨-, hne, -⟩
    · exact absurd (hnone.symm.trans hs) nofun
    · exact absurd hs hne
  · intro p q hp hs _ hq
    rcases hcalm p hp with hnone | ⟨-, -, halarm | hempty⟩
    · rw [hnone] at hs
      exact absurd hs (by decide)
    · rw [halarm] at hs
      exact absurd hs (by decide)
    · exact absurd hq (not_onQueue hempty q)
  · intro q hq
    exact of_decide_eq_true (hready q (readies_eq hq))

/-- A process waits for the one with the pid 2, and gets a signal. -/
def waiterGets (signal : BitVec 32) : List Event :=
  [.preempt, .leave, .dispatch, .dispatch, .exec true, .waitpid 2, .post 1 signal, .preempt, .leave,
    .dispatch, .dispatch]

/-- An exit takes a process off its queue. -/
def exitTurns : List Event := List.replicate 9 .exit

/-- The process with the pid 2 is interrupted in its exit, gets `SigAlarm`, and wakes the one that
waits for it, which runs. -/
def exitWakes : List Event :=
  [.exit, .exit, .exit, .exit, .exit, .exit, .post 2 sigAlarm, .preempt, .leave, .dispatch,
    .dispatch, .dispatch, .dispatch, .exit, .exit, .exit, .exit, .preempt, .leave, .dispatch,
    .dispatch]

/-- In every run a dead process stays dead as long as the steps disturb no dead process, until
`newProc` takes it from the free list. -/
theorem dead_stays_dead {m₀ m m' : Exits} {p : ProcId} (h₀ : m₀.Booted)
    (h : Run.ReachAny Step m₀ m) (hd : (m.kernel.procs p).state = .dead)
    (hrun : Run.Reach Step (fun t e => KeepsDead t e ∧ ¬ Spawns t.kernel e p) m m') :
  (m'.kernel.procs p).state = .dead
  := by
  have hinv : m'.Ok ∧ (m'.kernel.procs p).state = .dead := by
    refine hrun.invariant (P := fun t => t.Ok ∧ (t.kernel.procs p).state = .dead)
      ⟨ok_reachable h₀ h, hd⟩ ?_
    rintro t e t' ⟨hok, hdead⟩ ⟨hk, hs⟩ hstep
    exact ⟨hok.step hstep.effect, hok.dead_step hk hdead hs hstep.effect⟩
  exact hinv.2

theorem dead_stays_dead_exit :
  ∃ m m', Run.ReachAny Step (start booted) m ∧ (m.kernel.procs 124).state = .dead ∧
    Run.ReachAny Step m m' ∧ (m'.kernel.procs 126).state = .running ∧
      (m'.kernel.procs 124).state = .dead
  := by
  obtain ⟨m, hm, hP⟩ := exists_after (m := start booted) (C := fun _ _ => True)
    (g := fun _ _ => true) (P := fun m => (m.kernel.procs 124).state = .dead ∧
      ((Run.after next (calm .dead) m exitWakes).any
        fun m' => (m'.kernel.procs 126).state = .running) = true)
    (fun _ _ _ => trivial) (signalled sigAbort) (by decide +kernel)
  obtain ⟨hdead, hafter⟩ := of_decide_eq_true hP
  obtain ⟨m', hm', hP'⟩ := exists_after
    (C := fun t e => KeepsDead t e ∧ ¬ Spawns t.kernel e 124)
    (fun t e he => ⟨undisturbed_of_calm he (.inl rfl), calm_not_spawns he 124⟩) _ hafter
  exact ⟨m, m', hm, hdead, hm'.mono fun _ _ _ => trivial, of_decide_eq_true hP',
    dead_stays_dead start_booted hm hdead hm'⟩

/-- A process waits for another one, `SigAbort` of it is handled, and the other one exits
before the dead process is recycled: it is ready again. -/
theorem dead_made_ready :
  ¬ ∀ (m₀ m m' : Exits) (e : Event) (p : ProcId), m₀.Booted → Run.ReachAny Step m₀ m →
    Step m e m' → (m.kernel.procs p).state = .dead → ¬ Spawns m.kernel e p →
      (m'.kernel.procs p).state = .dead
  := by
  intro hclaim
  obtain ⟨m, m', hm, hstep, hP⟩ := exists_step (m := start booted)
    (P := fun m m' => (m.kernel.procs 126).state = .dead ∧ (m'.kernel.procs 126).state = .ready)
    (waiterGets sigAbort ++ exitTurns) .exit (by decide +kernel)
  obtain ⟨hdead, hready⟩ := of_decide_eq_true hP
  have hspawn : ¬ Spawns m.kernel .exit 126 := by
    rintro ⟨tty, he, -⟩
    cases he
  have := hclaim _ m m' .exit 126 start_booted hm hstep hdead hspawn
  rw [hready] at this
  cases this

end Exits

end Process
