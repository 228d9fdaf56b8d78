import Manos.Lib.Run
import Mathlib.Data.Int.Order.Basic
import Mathlib.Logic.Function.Basic
import Mathlib.Tactic.Common

/-!
# Critical regions

`enterCriticalRegion` and `leaveCriticalRegion`, access by access, and the runs of any number of
processes and of handlers that interrupt them and one another.  The counter is a variable of all
of them.  After `enterUserMode` the processes are unprivileged, and the instructions that disable
and enable interrupts do nothing in their code.  As long as only privileged code, that of handlers
and system calls, enters regions, the context that is inside one is the only one that runs.
-/

namespace Process

/-! ### The functions -/

/-- What the functions read and change. -/
structure Masking where
  criticalRegionCount : ℤ
  /-- whether interrupts are disabled -/
  primask : Bool
deriving DecidableEq

/-- Where the code of a context is. -/
inductive Point where
  /-- in neither of the functions -/
  | out
  /-- in `enterCriticalRegion`, which has found that the counter is 0 -/
  | disabling
  /-- before `criticalRegionCount++` -/
  | counting
  /-- in `criticalRegionCount++`, which has loaded `n` -/
  | adding (n : ℤ)
  /-- in `criticalRegionCount--`, which has loaded `n` -/
  | subtracting (n : ℤ)
  /-- after `criticalRegionCount--` -/
  | testing
  /-- in `leaveCriticalRegion`, which has found that the counter is 0 -/
  | enabling
deriving DecidableEq

/-- The code of a process or a handler, with the number of regions that it has entered and not
left. -/
structure Context where
  point : Point
  depth : ℕ
  /-- whether it is that of a handler, which is privileged -/
  handler : Bool
deriving DecidableEq

/-- The code of a process that has not called the functions yet. -/
def Context.thread : Context := ⟨.out, 0, false⟩

/-- The code of a handler that has not. -/
def Context.entry : Context := ⟨.out, 0, true⟩

/-- The first access of `enterCriticalRegion` -/
def enterCriticalRegion (g : Masking) : Point :=
  if g.criticalRegionCount = 0 then .disabling else .counting

/-- The first access of `leaveCriticalRegion` -/
def leaveCriticalRegion (g : Masking) : Point := .subtracting g.criticalRegionCount

/-- `cpsid` or `cpsie`, which has an effect in privileged code only. -/
def Masking.setPrimask (privileged disabled : Bool) (g : Masking) : Masking :=
  if privileged then { g with primask := disabled } else g

/-- The next access of the function that a context is in. -/
def Context.advance (privileged : Bool) (g : Masking) (c : Context) : Masking × Context :=
  match c.point with
  | .out => (g, c)
  | .disabling => (g.setPrimask privileged true, { c with point := .counting })
  | .counting => (g, { c with point := .adding g.criticalRegionCount })
  | .adding n => ({ g with criticalRegionCount := n + 1 }, ⟨.out, c.depth + 1, c.handler⟩)
  | .subtracting n => ({ g with criticalRegionCount := n - 1 }, { c with point := .testing })
  | .testing =>
      if g.criticalRegionCount = 0 then (g, { c with point := .enabling })
      else (g, ⟨.out, c.depth - 1, c.handler⟩)
  | .enabling => (g.setPrimask privileged false, ⟨.out, c.depth - 1, c.handler⟩)

/-! ### Runs -/

/-- The processes with the handlers that interrupted them. -/
structure Regions (ι : Type) where
  masking : Masking
  /-- whether the code of processes is unprivileged -/
  userMode : Bool
  running : ι
  /-- the context of a process that was not interrupted -/
  innermost : ι → Context
  /-- those that were, the last one first -/
  interrupted : ι → List Context

/-- What happens next. -/
inductive RegionEvent (ι : Type) where
  /-- the current context calls `enterCriticalRegion` -/
  | enter
  /-- it calls `leaveCriticalRegion` -/
  | leave
  /-- it goes on in the function that it is in -/
  | advance
  /-- a handler interrupts it -/
  | interrupt
  /-- the handler returns -/
  | back
  /-- another process is dispatched -/
  | switch (i : ι)
  /-- a process is set up -/
  | spawn (i : ι)
  /-- `main` calls `enterUserMode` -/
  | enterUserMode
deriving DecidableEq

/-- No context has called the functions. -/
def Regions.boot {ι : Type} (running : ι) : Regions ι where
  masking := ⟨0, false⟩
  userMode := false
  running := running
  innermost := fun _ => .thread
  interrupted := fun _ => []

section

variable {ι : Type}

/-- The context that runs. -/
def Regions.current (s : Regions ι) : Context := s.innermost s.running

/-- It is privileged. -/
def Regions.privileged (s : Regions ι) : Bool := s.current.handler || !s.userMode

/-- The event is not one of the code of the current context. -/
def RegionEvent.foreign : RegionEvent ι → Bool
  | enter => false
  | leave => false
  | advance => false
  | interrupt => true
  | back => true
  | switch _ => true
  | spawn _ => false
  | enterUserMode => false

variable [DecidableEq ι] {s s' : Regions ι} {g : Masking} {c : Context} {i : ι}

/-- The context that runs is another one, or has gone on. -/
def Regions.setCurrent (s : Regions ι) (g : Masking) (c : Context) : Regions ι :=
  ⟨g, s.userMode, s.running, Function.update s.innermost s.running c, s.interrupted⟩

/-- The contexts below the one that runs. -/
def Regions.setInterrupted (s : Regions ι) (l : List Context) : Regions ι :=
  ⟨s.masking, s.userMode, s.running, s.innermost, Function.update s.interrupted s.running l⟩

/-- A process that has not run. -/
def Regions.setUp (s : Regions ι) (i : ι) : Regions ι :=
  ⟨s.masking, s.userMode, s.running, Function.update s.innermost i .thread,
    Function.update s.interrupted i []⟩

/--
The steps.  A context leaves only regions that it has entered.  Interrupts, and the scheduler among
them, wait until they are enabled; a handler returns when it has left its regions.  `main` calls
`enterUserMode` before any process has run.
-/
inductive RegionStep (s : Regions ι) : RegionEvent ι → Regions ι → Prop where
  | enter (h : s.current.point = .out) :
      RegionStep s .enter
        (s.setCurrent s.masking { s.current with point := enterCriticalRegion s.masking })
  | leave (h : s.current.point = .out) (hd : 0 < s.current.depth) :
      RegionStep s .leave
        (s.setCurrent s.masking { s.current with point := leaveCriticalRegion s.masking })
  | advance (h : s.current.point ≠ .out) :
      RegionStep s .advance
        (s.setCurrent (s.current.advance s.privileged s.masking).1
          (s.current.advance s.privileged s.masking).2)
  | interrupt (h : s.masking.primask = false) :
      RegionStep s .interrupt
        ((s.setCurrent s.masking .entry).setInterrupted (s.current :: s.interrupted s.running))
  | back {c : Context} {rest : List Context} (h : s.current = .entry)
      (hi : s.interrupted s.running = c :: rest) :
      RegionStep s .back ((s.setCurrent s.masking c).setInterrupted rest)
  | switch {i : ι} (h : s.masking.primask = false) :
      RegionStep s (.switch i) ⟨s.masking, s.userMode, i, s.innermost, s.interrupted⟩
  | spawn {i : ι} (h : i ≠ s.running) :
      RegionStep s (.spawn i) (s.setUp i)
  | enterUserMode (h : ∀ i, s.innermost i = .thread ∧ s.interrupted i = []) :
      RegionStep s .enterUserMode { s with userMode := true }

/-- Only privileged code enters a region. -/
def EntersPrivileged (s : Regions ι) (e : RegionEvent ι) : Prop :=
  e = .enter → s.privileged = true

/-! ### The invariant -/

/-- A context that does not run: it has at most looked at the counter. -/
structure Context.Quiet (c : Context) : Prop where
  depth : c.depth = 0
  point : c.point = .out ∨ c.point = .disabling

/-- What a context that runs has left in the variables. -/
def Context.Fits (g : Masking) (c : Context) : Prop :=
  match c.point with
  | .out => g.criticalRegionCount = c.depth ∧ (g.primask = true ↔ 0 < c.depth)
  | .disabling => c.depth = 0 ∧ g.criticalRegionCount = 0 ∧ g.primask = false
  | .counting => g.criticalRegionCount = c.depth ∧ g.primask = true
  | .adding n => g.criticalRegionCount = c.depth ∧ n = c.depth ∧ g.primask = true
  | .subtracting n =>
      g.criticalRegionCount = c.depth ∧ n = c.depth ∧ 0 < c.depth ∧ g.primask = true
  | .testing => g.criticalRegionCount = (c.depth : ℤ) - 1 ∧ 0 < c.depth ∧ g.primask = true
  | .enabling => g.criticalRegionCount = 0 ∧ c.depth = 1 ∧ g.primask = true

/-- The code of a process is in none of the functions, and in no region. -/
def Context.Idle (c : Context) : Prop := c.handler = false → c.point = .out ∧ c.depth = 0

/-- The contexts that do not run are quiet, and where the code of processes is unprivileged, it is in
no region. -/
structure Regions.Inv (s : Regions ι) : Prop where
  current : s.current.Fits s.masking
  others : ∀ i ≠ s.running, (s.innermost i).Quiet
  interrupted : ∀ i, ∀ c ∈ s.interrupted i, c.Quiet
  idle : s.userMode = true → ∀ i, (s.innermost i).Idle ∧ ∀ c ∈ s.interrupted i, c.Idle

theorem Context.quiet_thread :
  Context.thread.Quiet
  := ⟨rfl, .inl rfl⟩

theorem Context.quiet_entry :
  Context.entry.Quiet
  := ⟨rfl, .inl rfl⟩

omit [DecidableEq ι] in
/-- Code that is in one of the functions or in a region is privileged. -/
theorem Regions.Inv.privileged (h : s.Inv) (hc : s.current.point ≠ .out ∨ 0 < s.current.depth) :
  s.privileged = true
  := by
  unfold Regions.privileged
  by_contra hp
  rw [Bool.or_eq_true, Bool.not_eq_true', not_or, Bool.not_eq_true, Bool.not_eq_false] at hp
  obtain ⟨hout, hdepth⟩ := (h.idle hp.2 s.running).1 hp.1
  rcases hc with hc | hc
  · exact hc hout
  · change s.current.depth = 0 at hdepth
    omega

omit [DecidableEq ι] in
theorem Regions.idle_of_privileged (h : s.privileged = true) (hu : s.userMode = true)
    (hc : c.handler = s.current.handler) :
  c.Idle
  := by
  intro hfalse
  rw [Regions.privileged, ← hc, hfalse, hu] at h
  cases h

theorem Context.handler_advance (b : Bool) :
  (c.advance b g).2.handler = c.handler
  := by
  obtain ⟨point, depth, handler⟩ := c
  cases point with
  | testing =>
      simp only [Context.advance]
      split
      · rfl
      · rfl
  | _ => rfl

/-- Where interrupts are enabled, the context that runs is quiet. -/
theorem Context.Fits.quiet (h : c.Fits g) (hg : g.primask = false) :
  c.Quiet ∧ g.criticalRegionCount = 0
  := by
  obtain ⟨point, depth, handler⟩ := c
  cases point with
  | out =>
      obtain ⟨hcount, hmask⟩ := h
      have hdepth : depth = 0 := by
        by_contra hne
        have := hmask.mpr (Nat.pos_of_ne_zero hne)
        rw [hg] at this
        contradiction
      subst hdepth
      exact ⟨⟨rfl, .inl rfl⟩, hcount⟩
  | disabling => exact ⟨⟨h.1, .inr rfl⟩, h.2.1⟩
  | counting => exact absurd h.2 (by simp [hg])
  | adding n => exact absurd h.2.2 (by simp [hg])
  | subtracting n => exact absurd h.2.2.2 (by simp [hg])
  | testing => exact absurd h.2.2 (by simp [hg])
  | enabling => exact absurd h.2.2 (by simp [hg])

/-- A context that is inside a region has disabled interrupts. -/
theorem Context.Fits.primask (h : c.Fits g) (hc : 0 < c.depth) :
  g.primask = true
  := by
  by_contra hmask
  rw [Bool.not_eq_true] at hmask
  rw [(h.quiet hmask).1.depth] at hc
  contradiction

/-- A quiet context can run where the counter is 0 and interrupts are enabled. -/
theorem Context.Quiet.fits (h : c.Quiet) (hcount : g.criticalRegionCount = 0)
    (hg : g.primask = false) :
  c.Fits g
  := by
  obtain ⟨point, depth, handler⟩ := c
  obtain ⟨rfl, rfl | rfl⟩ := h
  · exact ⟨hcount, by simp [hg]⟩
  · exact ⟨rfl, hcount, hg⟩

/-- The first access of `enterCriticalRegion`. -/
theorem Context.Fits.enter (h : c.Fits g) (hc : c.point = .out) :
  Context.Fits g { c with point := enterCriticalRegion g }
  := by
  obtain ⟨point, depth, handler⟩ := c
  obtain rfl : point = .out := hc
  obtain ⟨hcount, hmask⟩ := h
  unfold enterCriticalRegion
  split
  case isTrue hzero =>
    have hdepth : depth = 0 := Int.ofNat_eq_zero.mp (hcount.symm.trans hzero)
    subst hdepth
    refine ⟨rfl, hzero, ?_⟩
    rw [← Bool.not_eq_true, hmask]
    exact Nat.lt_irrefl 0
  case isFalse hne =>
    have hdepth : depth ≠ 0 := by
      rintro rfl
      exact hne hcount
    exact ⟨hcount, hmask.mpr (Nat.pos_of_ne_zero hdepth)⟩

/-- The other accesses, of privileged code. -/
theorem Context.Fits.advance (h : c.Fits g) (hc : c.point ≠ .out) :
  (c.advance true g).2.Fits (c.advance true g).1
  := by
  obtain ⟨point, depth, handler⟩ := c
  cases point with
  | out => exact absurd rfl hc
  | disabling =>
      obtain ⟨rfl, hcount, -⟩ := h
      exact ⟨hcount, rfl⟩
  | counting => exact ⟨h.1, h.1, h.2⟩
  | adding n =>
      obtain ⟨-, hn, hmask⟩ := h
      exact ⟨congrArg (· + 1) hn, iff_of_true hmask (Nat.succ_pos depth)⟩
  | subtracting n =>
      obtain ⟨-, hn, hpos, hmask⟩ := h
      exact ⟨congrArg (· - 1) hn, hpos, hmask⟩
  | testing =>
      obtain ⟨hcount, hpos, hmask⟩ := h
      dsimp only at hcount hpos
      simp only [Context.advance]
      split
      case isTrue hzero =>
        refine ⟨hzero, ?_, hmask⟩
        dsimp only
        omega
      case isFalse hne =>
        refine ⟨?_, iff_of_true hmask ?_⟩
        · dsimp only
          omega
        · dsimp only
          omega
  | enabling =>
      obtain ⟨hcount, rfl, -⟩ := h
      exact ⟨hcount, by simp [Context.advance, Masking.setPrimask]⟩

@[simp]
theorem Regions.current_setCurrent (s : Regions ι) (g : Masking) (c : Context) :
  (s.setCurrent g c).current = c
  := Function.update_self _ _ _

theorem Regions.innermost_setCurrent (h : i ≠ s.running) (g : Masking) (c : Context) :
  (s.setCurrent g c).innermost i = s.innermost i
  := Function.update_of_ne h _ _

@[simp]
theorem Regions.interrupted_running (s : Regions ι) (l : List Context) :
  (s.setInterrupted l).interrupted s.running = l
  := Function.update_self _ _ _

theorem Regions.interrupted_setInterrupted (h : i ≠ s.running) (l : List Context) :
  (s.setInterrupted l).interrupted i = s.interrupted i
  := Function.update_of_ne h _ _

theorem Regions.innermost_setUp (s : Regions ι) (i j : ι) :
  (s.setUp j).innermost i = if i = j then .thread else s.innermost i
  := Function.update_apply _ _ _ _

theorem Regions.interrupted_setUp (s : Regions ι) (i j : ι) :
  (s.setUp j).interrupted i = if i = j then [] else s.interrupted i
  := Function.update_apply _ _ _ _

/-- The other contexts stay when the current one goes on. -/
theorem Regions.Inv.setCurrent (h : s.Inv) (hc : c.Fits g) (hidle : s.userMode = true → c.Idle) :
  (s.setCurrent g c).Inv
  := by
  refine ⟨?_, ?_, h.interrupted, ?_⟩
  · rw [Regions.current_setCurrent]
    exact hc
  · intro i (hi : i ≠ s.running)
    rw [Regions.innermost_setCurrent hi]
    exact h.others i hi
  · intro hu i
    refine ⟨?_, (h.idle hu i).2⟩
    by_cases hi : i = s.running
    · subst hi
      change (s.setCurrent g c).current.Idle
      rw [Regions.current_setCurrent]
      exact hidle hu
    · rw [Regions.innermost_setCurrent hi]
      exact (h.idle hu i).1

/-- Quiet contexts may be interrupted. -/
theorem Regions.Inv.setInterrupted {l : List Context} (h : s.Inv) (hl : ∀ c ∈ l, c.Quiet)
    (hidle : s.userMode = true → ∀ c ∈ l, c.Idle) :
  (s.setInterrupted l).Inv
  := by
  refine ⟨h.current, h.others, ?_, ?_⟩
  · intro i c hc
    by_cases hi : i = s.running
    · subst hi
      rw [Regions.interrupted_running] at hc
      exact hl c hc
    · rw [Regions.interrupted_setInterrupted hi] at hc
      exact h.interrupted i c hc
  · intro hu i
    refine ⟨(h.idle hu i).1, ?_⟩
    by_cases hi : i = s.running
    · subst hi
      rw [Regions.interrupted_running]
      exact hidle hu
    · rw [Regions.interrupted_setInterrupted hi]
      exact (h.idle hu i).2

/-- Every step in which only privileged code enters a region keeps the invariant. -/
theorem RegionStep.inv {e : RegionEvent ι} (h : RegionStep s e s') (hs : s.Inv)
    (he : EntersPrivileged s e) :
  s'.Inv
  := by
  cases h with
  | enter hout =>
      refine hs.setCurrent (hs.current.enter hout) ?_
      intro hu
      exact Regions.idle_of_privileged (he rfl) hu rfl
  | leave hout hd =>
      have hcurrent := hs.current
      rw [Context.Fits, hout] at hcurrent
      refine hs.setCurrent ⟨hcurrent.1, hcurrent.1, hd, hcurrent.2.mpr hd⟩ ?_
      intro hu
      exact Regions.idle_of_privileged (hs.privileged (.inr hd)) hu rfl
  | advance hin =>
      have hp := hs.privileged (.inl hin)
      rw [hp]
      refine hs.setCurrent (hs.current.advance hin) ?_
      intro hu
      exact Regions.idle_of_privileged hp hu (Context.handler_advance true)
  | interrupt hmask =>
      obtain ⟨hquiet, hcount⟩ := hs.current.quiet hmask
      refine (hs.setCurrent (Context.quiet_entry.fits hcount hmask) fun _ => nofun).setInterrupted ?_
        ?_
      · exact List.forall_mem_cons.mpr ⟨hquiet, hs.interrupted _⟩
      · intro hu
        exact List.forall_mem_cons.mpr (hs.idle hu s.running)
  | @back c rest hnew hi =>
      have hcurrent := hs.current
      rw [hnew] at hcurrent
      have hrest := hs.interrupted s.running
      rw [hi, List.forall_mem_cons] at hrest
      have hidle : s.userMode = true → c.Idle ∧ ∀ d ∈ rest, d.Idle := by
        intro hu
        have hall := (hs.idle hu s.running).2
        rwa [hi, List.forall_mem_cons] at hall
      have hmask : s.masking.primask = false := by
        rw [← Bool.not_eq_true, hcurrent.2]
        exact Nat.lt_irrefl 0
      exact (hs.setCurrent (hrest.1.fits hcurrent.1 hmask) fun hu => (hidle hu).1).setInterrupted
        hrest.2 fun hu => (hidle hu).2
  | @switch j hmask =>
      obtain ⟨hquiet, hcount⟩ := hs.current.quiet hmask
      have hall : ∀ i, (s.innermost i).Quiet := by
        intro i
        by_cases hi : i = s.running
        · exact hi ▸ hquiet
        · exact hs.others i hi
      exact ⟨(hall j).fits hcount hmask, fun i _ => hall i, hs.interrupted, hs.idle⟩
  | @spawn j hj =>
      have hcurrent : (s.setUp j).current = s.current := Function.update_of_ne (Ne.symm hj) _ _
      refine ⟨?_, ?_, ?_, ?_⟩
      · rw [hcurrent]
        exact hs.current
      · intro i hi
        rw [Regions.innermost_setUp]
        split
        · exact Context.quiet_thread
        · exact hs.others i hi
      · intro i c hc
        rw [Regions.interrupted_setUp] at hc
        split at hc
        · cases hc
        · exact hs.interrupted i c hc
      · intro hu i
        rw [Regions.innermost_setUp, Regions.interrupted_setUp]
        split
        · exact ⟨fun _ => ⟨rfl, rfl⟩, List.forall_mem_nil _⟩
        · exact hs.idle hu i
  | enterUserMode hnew =>
      refine ⟨hs.current, hs.others, hs.interrupted, ?_⟩
      intro _ i
      dsimp only
      rw [(hnew i).1, (hnew i).2]
      exact ⟨fun _ => ⟨rfl, rfl⟩, List.forall_mem_nil _⟩

/-- In every state of a run the invariant holds. -/
theorem regions_inv {running : ι}
    (h : Run.Reach RegionStep EntersPrivileged (Regions.boot running) s) :
  s.Inv
  := by
  have hboot : (Regions.boot running).Inv :=
    ⟨Context.quiet_thread.fits rfl rfl, fun _ _ => Context.quiet_thread, nofun, nofun⟩
  refine h.invariant hboot ?_
  intro t e t' ht he hs
  exact hs.inv ht he

/-! ### Exclusion -/

/-- Inside a region only the code of the current context runs. -/
theorem RegionStep.not_foreign {e : RegionEvent ι} (h : RegionStep s e s') (hs : s.Inv)
    (hd : 0 < s.current.depth) :
  e.foreign = false
  := by
  have hmask := hs.current.primask hd
  cases h with
  | interrupt hfalse => exact absurd (hmask.symm.trans hfalse) Bool.noConfusion
  | switch hfalse => exact absurd (hmask.symm.trans hfalse) Bool.noConfusion
  | back hnew _ => exact absurd hd (by simp [hnew, Context.entry])
  | enter => rfl
  | leave => rfl
  | advance => rfl
  | spawn => rfl
  | enterUserMode => rfl

/-- The code of the current context leaves the process and what it interrupted. -/
theorem RegionStep.same {e : RegionEvent ι} (h : RegionStep s e s') (he : e.foreign = false) :
  s'.running = s.running ∧ s'.interrupted s.running = s.interrupted s.running
  := by
  cases h with
  | enter => exact ⟨rfl, rfl⟩
  | leave => exact ⟨rfl, rfl⟩
  | advance => exact ⟨rfl, rfl⟩
  | spawn hi => exact ⟨rfl, Function.update_of_ne (Ne.symm hi) _ _⟩
  | enterUserMode => exact ⟨rfl, rfl⟩
  | interrupt => cases he
  | back => cases he
  | switch => cases he

/--
However privileged code of processes and handlers calls the functions, and whatever interrupts what,
at most one context is inside a region, and it is the one that runs; outside of the functions the
counter is the depth of its regions, and interrupts are disabled exactly inside them.  As long as it
is inside, neither an interrupt nor another process comes between its steps.
-/
theorem regions_exclusive {running : ι}
    (h : Run.Reach RegionStep EntersPrivileged (Regions.boot running) s) :
  (∀ i, 0 < (s.innermost i).depth → i = s.running) ∧
    (∀ i, ∀ c ∈ s.interrupted i, c.depth = 0) ∧
    (s.current.point = .out → s.masking.criticalRegionCount = s.current.depth ∧
      (s.masking.primask = true ↔ 0 < s.current.depth)) ∧
    ∀ s', Run.Reach RegionStep (fun t e => EntersPrivileged t e ∧ 0 < t.current.depth) s s' →
      s'.running = s.running ∧ s'.interrupted s.running = s.interrupted s.running
  := by
  have hs := regions_inv h
  refine ⟨?_, ?_, ?_, ?_⟩
  · intro i hi
    by_contra hne
    rw [(hs.others i hne).depth] at hi
    contradiction
  · intro i c hc
    exact (hs.interrupted i c hc).depth
  · intro hout
    have hcurrent := hs.current
    rw [Context.Fits, hout] at hcurrent
    exact hcurrent
  · intro s' hreach
    have hinit : s.Inv ∧ s.running = s.running ∧
        s.interrupted s.running = s.interrupted s.running := ⟨hs, rfl, rfl⟩
    have hall := hreach.invariant (P := fun t => t.Inv ∧ t.running = s.running ∧
      t.interrupted s.running = s.interrupted s.running) hinit ?_
    · exact hall.2
    rintro t e t' ⟨ht, hrunning, hinterrupted⟩ ⟨he, hd⟩ hstep
    obtain ⟨hr, hi⟩ := hstep.same (hstep.not_foreign ht hd)
    rw [hrunning] at hr hi
    exact ⟨hstep.inv ht he, hr, hi.trans hinterrupted⟩

end

/-- A system call of an unprivileged process is interrupted in `enterCriticalRegion`, the handler that
interrupts it enters a region, and goes on. -/
theorem regions_exclusive_interrupt :
  ∃ s : Regions Bool, s.userMode = true ∧ s.current = ⟨.out, 1, true⟩ ∧
    s.interrupted true = [⟨.disabling, 0, true⟩, .thread] ∧ s.masking = ⟨1, true⟩ ∧
      ∀ i, 0 < (s.innermost i).depth → i = s.running
  := by
  have h₀ : Run.Reach RegionStep EntersPrivileged (Regions.boot true) _ := .refl _
  have h₁ := h₀.snoc (e := .enterUserMode) nofun (.enterUserMode fun _ => ⟨rfl, rfl⟩)
  have h₂ := h₁.snoc (e := .interrupt) nofun (.interrupt rfl)
  have h₃ := h₂.snoc (fun _ => rfl) (.enter rfl)
  have h₄ := h₃.snoc (e := .interrupt) nofun (.interrupt rfl)
  have h₅ := h₄.snoc (fun _ => rfl) (.enter rfl)
  have h₆ := h₅.snoc (e := .advance) nofun (.advance (by decide))
  have h₇ := h₆.snoc (e := .advance) nofun (.advance (by decide))
  have h₈ := h₇.snoc (e := .advance) nofun (.advance (by decide))
  have hexclusive := regions_exclusive h₈
  exact ⟨_, rfl, rfl, rfl, rfl, hexclusive.1⟩

/-- Unprivileged code excludes nothing: a process is switched off inside a region. -/
theorem regions_not_exclusive :
  ¬ ∀ (running : Bool) (s : Regions Bool), Run.ReachAny RegionStep (Regions.boot running) s →
    ∀ i, 0 < (s.innermost i).depth → i = s.running
  := by
  intro hclaim
  have h₀ : Run.ReachAny RegionStep (Regions.boot true) _ := .refl _
  have h₁ := h₀.snoc (.enterUserMode fun _ => ⟨rfl, rfl⟩)
  have h₂ := h₁.snoc (.enter rfl)
  have h₃ := h₂.snoc (.advance (by decide))
  have h₄ := h₃.snoc (.advance (by decide))
  have h₅ := h₄.snoc (.advance (by decide))
  have h₆ := h₅.snoc (.switch (i := false) rfl)
  exact Bool.noConfusion (hclaim true _ h₆ true (by decide))

end Process
