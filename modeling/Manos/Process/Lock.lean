import Manos.Lib.Exec
import Manos.Lib.Run
import Mathlib.Logic.Function.Basic

/-!
# Locks

The functions of `lock.c` on the K70, as programs over a `Lock`, and the runs of any number of
processes that call them.  A critical region is a step, and between two turns of the loop of
`syslock` other processes run.  The queue of a lock is not used by the code.
-/

namespace Process

open Exec

/-! ### The functions of `lock.c` -/

/-- `Lock` -/
structure Lock where
  count : Int
  pid : Int
  locked : Int
deriving DecidableEq

/-- `INIT_LOCK` -/
def initLock : Lock := ⟨0, -1, 0⟩

/-- What the functions read of `*rp`. -/
structure LockProc where
  pid : Int
  /-- whether the state is `ProcDead` -/
  dead : Bool

/-- `!rp || rp->pid == -1` -/
def noProc (rp : Option LockProc) : Bool := rp.all fun p => p.pid = -1

/-- `l->locked = 1`, together with the other variables that a process sets that gets the lock -/
def takeLock (p : LockProc) : Exec Lock Unit :=
  modify fun l => { l with locked := 1, count := l.count + 1, pid := p.pid }

/-- `systrylock` -/
def systrylock : Option LockProc → Exec Lock Int
  | none => pure 1
  | some p =>
      if p.pid = -1 then pure 1
      else do
        let l ← get
        if l.locked = 0 then
          takeLock p
          return 1
        else return 0

/-- `syslock` up to the critical region: whether the function goes on. -/
def syslock : Option LockProc → Exec Lock Bool
  | none => pure false
  | some p =>
      if p.pid = -1 then pure false
      else do
        assert (p.dead = false) "lock() dead procs can't hold locks"
        return true

/--
The critical region of `syslock`, from its start to its end or to the next turn of the loop: whether
the process has the lock.  If it has not, it yields.
-/
def syslockTurn (p : LockProc) : Exec Lock Bool := do
  let l ← get
  if l.locked = 0 then
    takeLock p
    return true
  else return false

/-- `sysunlock` -/
def sysunlock : Option LockProc → Exec Lock Unit
  | none => pure ()
  | some p =>
      if p.pid = -1 then pure ()
      else modify fun l => ⟨l.count - 1, -1, 0⟩

/-- Where there is no process, the functions do nothing. -/
theorem syslock_noProc {rp : Option LockProc} (h : noProc rp = true) (l : Lock) :
  syslock rp l = .done false l ∧ sysunlock rp l = .done () l
  := by
  cases rp with
  | none => exact ⟨rfl, rfl⟩
  | some p =>
      have hp : p.pid = -1 := by simpa [noProc] using h
      exact ⟨congrFun (if_pos hp) l, congrFun (if_pos hp) l⟩

/-! ### Runs -/

/-- A lock, the processes in the loop of `syslock`, and those that have got the lock. -/
structure Locking (ι : Type) where
  lock : Lock
  waits : ι → Bool
  holds : ι → Bool

/-- What a process does next. -/
inductive LockEvent (ι : Type) where
  /-- it calls `systrylock`, which returns `r` -/
  | trylock (i : ι) (r : Int)
  /-- it calls `syslock` -/
  | lock (i : ι)
  /-- it is in the critical region of `syslock` -/
  | turn (i : ι)
  /-- it calls `sysunlock` -/
  | unlock (i : ι)

/-- No process has called a function yet. -/
def Locking.init (ι : Type) : Locking ι := ⟨initLock, fun _ => false, fun _ => false⟩

section Steps

variable {ι : Type} [DecidableEq ι] {pid : ι → Int} {s s' : Locking ι}

/--
The steps of processes with the given pids.  A process is in one call at a time, and unlocks a lock
that it holds.
-/
inductive LockStep (pid : ι → Int) (s : Locking ι) : LockEvent ι → Locking ι → Prop where
  | trylock {i : ι} {dead : Bool} {r : Int} {l : Lock} (hw : s.waits i = false)
      (hrun : systrylock (some ⟨pid i, dead⟩) s.lock = .done r l) :
      LockStep pid s (.trylock i r)
        ⟨l, s.waits, if r ≠ 0 then Function.update s.holds i true else s.holds⟩
  | lock {i : ι} {dead : Bool} {b : Bool} {l : Lock} (hw : s.waits i = false)
      (hrun : syslock (some ⟨pid i, dead⟩) s.lock = .done b l) :
      LockStep pid s (.lock i) ⟨l, Function.update s.waits i b, s.holds⟩
  | turn {i : ι} {dead : Bool} {b : Bool} {l : Lock} (hw : s.waits i = true)
      (hrun : syslockTurn ⟨pid i, dead⟩ s.lock = .done b l) :
      LockStep pid s (.turn i)
        ⟨l, Function.update s.waits i (!b),
          if b then Function.update s.holds i true else s.holds⟩
  | unlock {i : ι} {dead : Bool} {l : Lock} (hw : s.waits i = false) (hh : s.holds i = true)
      (hrun : sysunlock (some ⟨pid i, dead⟩) s.lock = .done () l) :
      LockStep pid s (.unlock i) ⟨l, s.waits, Function.update s.holds i false⟩

/-! ### Mutual exclusion -/

/-- Either the lock is free, or one process holds it. -/
inductive Locking.Inv (pid : ι → Int) (s : Locking ι) : Prop where
  | free (hlock : s.lock = initLock) (hholds : ∀ i, s.holds i = false)
  | held (i : ι) (hlock : s.lock = ⟨1, pid i, 1⟩) (hholds : ∀ j, s.holds j = true ↔ j = i)

/-- A process that gets the lock is the one that holds it. -/
theorem inv_take (i : ι) (hholds : ∀ i, s.holds i = false) (waits : ι → Bool) :
  Locking.Inv pid ⟨⟨1, pid i, 1⟩, waits, Function.update s.holds i true⟩
  := by
  refine .held i rfl fun j => ?_
  by_cases hj : j = i
  · simp [hj]
  · simp [hj, hholds j]

/-- What the functions do to a lock that is held or free. -/
theorem systrylock_eq {p : LockProc} (hp : p.pid ≠ -1) (l : Lock) :
  systrylock (some p) l =
    if l.locked = 0 then .done 1 ⟨l.count + 1, p.pid, 1⟩ else .done 0 l
  := by
  apply (congrFun (if_neg hp) l).trans
  apply (bind_done (get_apply l)).trans
  split
  · rfl
  · rfl

theorem syslockTurn_eq (p : LockProc) (l : Lock) :
  syslockTurn p l = if l.locked = 0 then .done true ⟨l.count + 1, p.pid, 1⟩ else .done false l
  := by
  apply (bind_done (get_apply l)).trans
  split
  · rfl
  · rfl

theorem syslock_eq {p : LockProc} (hp : p.pid ≠ -1) {l l' : Lock} {b : Bool}
    (h : syslock (some p) l = .done b l') :
  b = true ∧ l' = l
  := by
  have h' := (congrFun (if_neg hp) l).symm.trans h
  obtain ⟨_, l₁, hassert, hret⟩ := bind_eq_done_iff.mp h'
  obtain ⟨-, rfl⟩ := assert_eq_done_iff.mp hassert
  cases hret
  exact ⟨rfl, rfl⟩

/-- Every step keeps the invariant. -/
theorem LockStep.inv {e : LockEvent ι} (h : LockStep pid s e s') (hpid : ∀ i, pid i ≠ -1)
    (hs : s.Inv pid) :
  s'.Inv pid
  := by
  cases h with
  | @trylock i dead r l hw hrun =>
      rw [systrylock_eq (p := ⟨pid i, dead⟩) (hpid i)] at hrun
      rcases hs with ⟨hlock, hholds⟩ | ⟨j, hlock, hholds⟩
      · rw [hlock] at hrun
        cases hrun
        apply inv_take i hholds
      · rw [hlock] at hrun
        cases hrun
        exact .held j rfl hholds
  | @lock i dead b l hw hrun =>
      obtain ⟨-, rfl⟩ := syslock_eq (p := ⟨pid i, dead⟩) (hpid i) hrun
      rcases hs with ⟨hlock, hholds⟩ | ⟨j, hlock, hholds⟩
      · exact .free hlock hholds
      · exact .held j hlock hholds
  | @turn i dead b l hw hrun =>
      rw [syslockTurn_eq] at hrun
      rcases hs with ⟨hlock, hholds⟩ | ⟨j, hlock, hholds⟩
      · rw [hlock] at hrun
        cases hrun
        apply inv_take i hholds
      · rw [hlock] at hrun
        cases hrun
        exact .held j rfl hholds
  | @unlock i dead l hw hh hrun =>
      have hrun' : Outcome.done () ⟨s.lock.count - 1, -1, 0⟩ = Outcome.done () l :=
        (congrFun (if_neg (hpid i)) s.lock).symm.trans hrun
      cases hrun'
      rcases hs with ⟨hlock, hholds⟩ | ⟨j, hlock, hholds⟩
      · rw [hholds i] at hh
        contradiction
      · refine .free ?_ fun k => ?_
        · rw [hlock]
          rfl
        · have hij := (hholds i).mp hh
          by_cases hk : k = i
          · simp [hk]
          · have hkj : ¬ s.holds k = true := fun h => hk (((hholds k).mp h).trans hij.symm)
            simpa [hk] using hkj

/-- In every state of a run the invariant holds. -/
theorem locking_inv (hpid : ∀ i, pid i ≠ -1)
    (h : Run.ReachAny (LockStep pid) (Locking.init ι) s) :
  s.Inv pid
  := by
  refine h.invariant (.free rfl fun _ => rfl) ?_
  intro t e t' ht _ hs
  apply hs.inv hpid ht

/--
However processes with a pid call the functions on a lock that was set up, at most one of them
holds the lock; the lock is locked, and its count is one, exactly while one does, and its pid is the
pid of that process, or -1; and a call of `systrylock` that returns 0 changes nothing.
-/
theorem lock_exclusive (hpid : ∀ i, pid i ≠ -1)
    (h : Run.ReachAny (LockStep pid) (Locking.init ι) s) :
  (∀ i j, s.holds i = true → s.holds j = true → i = j) ∧
    (s.lock.locked = 1 ↔ ∃ i, s.holds i = true) ∧
    (s.lock.count = 1 ↔ ∃ i, s.holds i = true) ∧
    (∀ i, s.holds i = true → s.lock.pid = pid i) ∧
    ((∀ i, s.holds i = false) → s.lock = initLock) ∧
    ∀ i s', LockStep pid s (.trylock i 0) s' → s' = s
  := by
  have hinv := locking_inv hpid h
  have htry (i : ι) (s' : Locking ι) (hstep : LockStep pid s (.trylock i 0) s') : s' = s := by
    cases hstep with
    | @trylock _ dead _ l hw hrun =>
        rw [systrylock_eq (p := ⟨pid i, dead⟩) (hpid i)] at hrun
        split at hrun
        · cases hrun
        · cases hrun
          rfl
  rcases hinv with ⟨hlock, hholds⟩ | ⟨i, hlock, hholds⟩
  · refine ⟨?_, ?_, ?_, ?_, fun _ => hlock, htry⟩
    · intro i j hi
      rw [hholds i] at hi
      contradiction
    · simp [hlock, hholds, initLock]
    · simp [hlock, hholds, initLock]
    · intro i hi
      rw [hholds i] at hi
      contradiction
  · refine ⟨?_, ?_, ?_, ?_, ?_, htry⟩
    · intro j k hj hk
      rw [(hholds j).mp hj, (hholds k).mp hk]
    · rw [hlock]
      exact iff_of_true rfl ⟨i, (hholds i).mpr rfl⟩
    · rw [hlock]
      exact iff_of_true rfl ⟨i, (hholds i).mpr rfl⟩
    · intro j hj
      rw [hlock, (hholds j).mp hj]
    · intro hfree
      have := (hholds i).mpr rfl
      rw [hfree i] at this
      contradiction

/-- A process that is in no call can always make one that returns, and one in the loop of `syslock`
can always go on. -/
theorem lock_progress (hpid : ∀ i, pid i ≠ -1) (s : Locking ι) (i : ι) :
  if s.waits i then ∃ s', LockStep pid s (.turn i) s'
  else (∃ r s', LockStep pid s (.trylock i r) s') ∧ ∃ s', LockStep pid s (.lock i) s'
  := by
  split
  · rename_i hw
    have hturn := syslockTurn_eq ⟨pid i, false⟩ s.lock
    split at hturn
    · exact ⟨_, .turn hw hturn⟩
    · exact ⟨_, .turn hw hturn⟩
  · rename_i hw
    rw [Bool.not_eq_true] at hw
    have htry := systrylock_eq (p := ⟨pid i, false⟩) (hpid i) s.lock
    have hlock : syslock (some ⟨pid i, false⟩) s.lock = .done true s.lock :=
      congrFun (if_neg (hpid i)) s.lock
    refine ⟨?_, _, .lock hw hlock⟩
    split at htry
    · exact ⟨1, _, .trylock hw htry⟩
    · exact ⟨0, _, .trylock hw htry⟩

end Steps

/-- Two processes: the first one takes the lock, and the second one waits for it in vain. -/
theorem lock_exclusive_two :
  ∃ s : Locking Bool, s.holds true = true ∧ s.waits false = true ∧
    ∀ i j, s.holds i = true → s.holds j = true → i = j
  := by
  have hpid : ∀ i : Bool, (if i then 1 else 2 : Int) ≠ -1 := by decide
  have h₀ : Run.ReachAny (LockStep fun i : Bool => if i then 1 else 2) (Locking.init Bool) _ :=
    .refl _
  have h₁ := h₀.snoc (@LockStep.trylock _ _ _ _ true false 1 _ rfl rfl)
  have h₂ := h₁.snoc (@LockStep.lock _ _ _ _ false false true _ rfl rfl)
  have h₃ := h₂.snoc (@LockStep.turn _ _ _ _ false false false _ rfl rfl)
  exact ⟨_, rfl, rfl, (lock_exclusive hpid h₃).1⟩

end Process
