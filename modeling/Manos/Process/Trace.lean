import Mathlib.Data.List.FinRange
import Manos.Process.Steps

/-!
# Running the kernel

The kernel boots, and the kernel after a list of events, computed: runs in which processes are
started, wait and exit, and those in which the kernel does not do what it should.
-/

namespace Process

open Exec

variable {k k' : Kernel} {p : ProcId} {e : Event}

/-! ### Boot -/

/-- Lists of processes do not depend on the links of other nodes. -/
theorem ring_init {K : Links QNode} {l : List ProcId} (hr : K.Ring .head (l.map .proc))
    (hp : p ∉ l) :
  (K.init (.proc p)).Ring .head (l.map .proc)
  := by
  apply hr.frame
  intro y hy
  apply Links.sameAt_init
  rintro rfl
  simp only [List.mem_cons, reduceCtorEq, List.mem_map, QNode.proc.injEq, exists_eq_right,
    false_or] at hy
  exact hp hy

/-- The loop of `main` puts the structures at the start of the free list. -/
theorem makeFreelist_done {l f : List ProcId} (hr : k.freelist.Ring .head (f.map .proc))
    (hn : (l ++ f).Nodup) :
  ∃ freelist, makeFreelist l k = .done () { k with freelist := freelist } ∧
    freelist.Ring .head ((l.reverse ++ f).map .proc)
  := by
  induction l generalizing k f with
  | nil => exact ⟨k.freelist, rfl, hr⟩
  | cons p l ih =>
      rw [List.cons_append, List.nodup_cons, List.mem_append, not_or] at hn
      obtain ⟨⟨hpl, hpf⟩, hn⟩ := hn
      have hring : ((k.freelist.init (.proc p)).addAfter (.proc p) .head).Ring .head
          ((p :: f).map .proc) := by
        apply (ring_init hr hpf).addAfter
        simp only [List.mem_cons, reduceCtorEq, List.mem_map, QNode.proc.injEq,
          exists_eq_right, false_or]
        exact hpf
      have hnd : (l ++ p :: f).Nodup := by
        rw [List.perm_middle.nodup_iff, List.nodup_cons, List.mem_append, not_or]
        exact ⟨⟨hpl, hpf⟩, hn⟩
      obtain ⟨freelist, hrun, hfree⟩ := ih
        (k := (k.setFreelist (Links.init (.proc p))).setFreelist
          (Links.addAfter (.proc p) .head)) hring hnd
      refine ⟨freelist, hrun, ?_⟩
      rw [List.reverse_cons, List.append_assoc, List.singleton_append]
      exact hfree

/-- The kernel when `main` has set up the lists. -/
def listsSet (freelist : Links QNode) (memory : Int → Slot) : Kernel :=
  { powerOn memory with
    runQ := (powerOn memory).runQ.init .head
    freelist := freelist
    procTable := fun i => if 0 ≤ i ∧ i < maxProc then .null else memory i }

theorem setup_done (memory : Int → Slot) :
  ∃ freelist, setup (powerOn memory) = .done () (listsSet freelist memory) ∧
    freelist.Ring .head ((List.finRange maxProc).reverse.map .proc)
  := by
  obtain ⟨freelist, hrun, hring⟩ := makeFreelist_done
    (k := { powerOn memory with
      runQ := (powerOn memory).runQ.init .head
      freelist := (powerOn memory).freelist.init .head })
    (l := List.finRange maxProc) (f := []) Links.alone_init.ring
    (by rw [List.append_nil]; exact List.nodup_finRange maxProc)
  rw [List.append_nil] at hring
  refine ⟨freelist, ?_, hring⟩
  rw [setup, bind_done (modify_apply _ _), bind_done (modify_apply _ _),
    bind_done (modify_apply _ _)]
  exact bind_done hrun

/-- A booted kernel is one that set up its lists and started a process. -/
theorem Booted.spawned (h : Booted k) :
  ∃ freelist memory tty p,
    freelist.Ring .head ((List.finRange maxProc).reverse.map .proc) ∧
      schedProc tty (listsSet freelist memory) = .done p k
  := by
  obtain ⟨memory, tty, p, hboot⟩ := h
  obtain ⟨freelist, hsetup, hring⟩ := setup_done memory
  rw [boot, bind_done hsetup] at hboot
  exact ⟨freelist, memory, tty, p, hring, hboot⟩

/-- To open a file returns. -/
theorem sysopen_returns (p : ProcId) (opens : Bool) (k : Kernel) :
  ∃ fd k', __sysopen p opens k = .done fd k'
  := by
  rw [__sysopen, bind_done (get_apply k)]
  cases (List.range maxFd).find? fun fd => (k.procs p).descriptorTable fd = none with
  | none => exact ⟨_, _, rfl⟩
  | some n =>
      cases opens with
      | false => exact ⟨_, _, rfl⟩
      | true => exact ⟨_, _, rfl⟩

/-- The process `p` is started when it is the first of the free list and its slot is free. -/
theorem schedProc_returns (tty : Bool) (hf : k.freelist.next .head = .proc p)
    (h₀ : k.pidFor p ≠ 0) (ht : k.procTable (k.pidFor p) = .null) :
  ∃ k', schedProc tty k = .done p k'
  := by
  have hnew : newProc k = .done p (k.taken p) := by rw [newProc_apply hf h₀, if_pos ht]
  obtain ⟨fd, k₂, hopen⟩ := sysopen_returns p tty (k.taken p)
  rw [schedProc, bind_done hnew, bind_done hopen]
  exact ⟨_, rfl⟩

/-- The kernel boots, whatever is in the memory after the process table. -/
theorem boot_returns (memory : Int → Slot) (tty : Bool) :
  ∃ p k, boot tty (powerOn memory) = .done p k
  := by
  obtain ⟨freelist, hsetup, hring⟩ := setup_done memory
  have hfirst : (List.finRange maxProc).reverse =
      Fin.last 126 :: ((List.finRange 126).map Fin.castSucc).reverse := by
    change (List.finRange 127).reverse = _
    rw [List.finRange_succ_last, List.reverse_append]
    rfl
  obtain ⟨k, hk⟩ := schedProc_returns (k := listsSet freelist memory) (p := Fin.last 126) tty
    (by
      have hnext := hring.neighbours_head.1
      rw [hfirst] at hnext
      exact hnext)
    (by
      change (1 : Int) ≠ 0
      decide)
    (by
      change (if (0 : Int) ≤ 1 ∧ (1 : Int) < (maxProc : Nat) then Slot.null else memory 1) = .null
      exact if_pos (by decide))
  refine ⟨Fin.last 126, k, ?_⟩
  rw [boot, bind_done hsetup]
  exact hk

/-! ### Computed runs -/

/-- The state of a program that returned. -/
def completed {α : Type} : Outcome Kernel α → Option Kernel
  | .done _ k => some k
  | .stop _ _ => none

theorem completed_eq_some {α : Type} {o : Outcome Kernel α} (h : completed o = some k) :
  ∃ a, o = .done a k
  := by
  cases o with
  | done a s =>
      cases h
      exact ⟨a, rfl⟩
  | stop f s => cases h

theorem if_completed {α : Type} {c : Prop} [Decidable c] {o : Outcome Kernel α}
    (h : (if c then completed o else none) = some k) :
  c ∧ ∃ a, o = .done a k
  := by
  split at h
  · rename_i hc
    exact ⟨hc, completed_eq_some h⟩
  · cases h

/-- The process that runs its code, if there is one. -/
def Kernel.runner (k : Kernel) : Option ProcId :=
  match k.rp with
  | .proc r => if k.pendsv = false ∧ k.switching = false then some r else none
  | .null => none
  | .bad => none

theorem runner_runs {r : ProcId} (h : k.runner = some r) :
  Runs k r
  := by
  unfold Kernel.runner at h
  split at h
  · rename_i p hp
    split at h
    · rename_i hc
      cases h
      exact ⟨hp, hc.1, hc.2⟩
    · cases h
  · cases h
  · cases h

/-- The state of a program that the running process runs, in its own code if `own` holds. -/
def Kernel.byRunner {α : Type} (own : Bool) (x : ProcId → K α) (k : Kernel) : Option Kernel :=
  match k.runner with
  | none => none
  | some r => if own = true → (k.procs r).ctl = .user then completed (x r k) else none

theorem byRunner_eq_some {α : Type} {own : Bool} {x : ProcId → K α}
    (h : k.byRunner own x = some k') :
  ∃ r a, Runs k r ∧ (own = true → (k.procs r).ctl = .user) ∧ x r k = .done a k'
  := by
  unfold Kernel.byRunner at h
  split at h
  · cases h
  · rename_i r hr
    split at h
    · rename_i hown
      obtain ⟨a, ha⟩ := completed_eq_some h
      exact ⟨r, a, runner_runs hr, hown, ha⟩
    · cases h

/-- The kernel after an event, if it can happen and its code returns. -/
def Kernel.next (k : Kernel) : Event → Option Kernel
  | .exec tty => k.byRunner true fun _ => schedProc tty
  | .waitpid pid => k.byRunner true fun r => syswaitpid r pid
  | .sleep millis opens => k.byRunner true fun r => syssleep r millis opens
  | .openFile opens => k.byRunner true fun r => __sysopen r opens
  | .closeFile fd => k.byRunner true fun r => sysclose r fd (.closing fd) .user
  | .resume => k.byRunner false resume
  | .mask m => k.byRunner true fun r => setSignalMask r m
  | .block m => k.byRunner true fun r => setSignalBlock r m
  | .unblock m => k.byRunner true fun r => setSignalUnblock r m
  | .exit => k.byRunner false __manos_exit
  | .post pid signal => if k.scan = none then completed (syspostsignal pid signal k) else none
  | .alarms => if k.scan = none then completed (pdbHandler k) else none
  | .tick => if k.scan = none then completed (toieHandler k) else none
  | .preempt => if k.rp ≠ .bad ∧ k.switching = false then completed (preempt k) else none
  | .leave => if k.switching = true then completed (leave k) else none
  | .dispatch => if k.rp = .bad then completed (dispatch k) else none

/-- What is computed is a step. -/
theorem next_step (h : k.next e = some k') :
  Step k e k'
  := by
  cases e with
  | exec tty =>
      obtain ⟨r, a, hr, hc, hx⟩ := byRunner_eq_some h
      exact .exec ⟨hr, hc rfl⟩ hx
  | waitpid pid =>
      obtain ⟨r, a, hr, hc, hx⟩ := byRunner_eq_some h
      exact .waitpid ⟨hr, hc rfl⟩ hx
  | sleep millis opens =>
      obtain ⟨r, a, hr, hc, hx⟩ := byRunner_eq_some h
      exact .sleep ⟨hr, hc rfl⟩ hx
  | openFile opens =>
      obtain ⟨r, a, hr, hc, hx⟩ := byRunner_eq_some h
      exact .openFile ⟨hr, hc rfl⟩ hx
  | closeFile fd =>
      obtain ⟨r, a, hr, hc, hx⟩ := byRunner_eq_some h
      exact .closeFile ⟨hr, hc rfl⟩ hx
  | resume =>
      obtain ⟨r, a, hr, -, hx⟩ := byRunner_eq_some h
      exact .resume hr hx
  | mask m =>
      obtain ⟨r, a, hr, hc, hx⟩ := byRunner_eq_some h
      exact .mask ⟨hr, hc rfl⟩ hx
  | block m =>
      obtain ⟨r, a, hr, hc, hx⟩ := byRunner_eq_some h
      exact .block ⟨hr, hc rfl⟩ hx
  | unblock m =>
      obtain ⟨r, a, hr, hc, hx⟩ := byRunner_eq_some h
      exact .unblock ⟨hr, hc rfl⟩ hx
  | exit =>
      obtain ⟨r, a, hr, -, hx⟩ := byRunner_eq_some h
      exact .exit hr hx
  | post pid signal =>
      obtain ⟨hs, a, hx⟩ := if_completed h
      exact .post hs hx
  | alarms =>
      obtain ⟨hs, a, hx⟩ := if_completed h
      exact .alarms hs hx
  | tick =>
      obtain ⟨hs, a, hx⟩ := if_completed h
      exact .tick hs hx
  | preempt =>
      obtain ⟨hs, a, hx⟩ := if_completed h
      exact .preempt hs.1 hs.2 hx
  | leave =>
      obtain ⟨hs, a, hx⟩ := if_completed h
      exact .leave hs hx
  | dispatch =>
      obtain ⟨hs, a, hx⟩ := if_completed h
      exact .dispatch hs hx

/-- The kernel after a list of events. -/
def Kernel.trace (k : Kernel) : List Event → Option Kernel
  | [] => some k
  | e :: l => (k.next e).bind fun k' => k'.trace l

/-- What is computed is reached. -/
theorem trace_reaches {l : List Event} (h : k.trace l = some k') :
  Run.ReachAny Step k k'
  := by
  induction l generalizing k with
  | nil =>
      cases h
      exact Run.Reach.refl _
  | cons e l ih =>
      unfold Kernel.trace at h
      obtain ⟨k₁, h₁, h⟩ := Option.bind_eq_some_iff.mp h
      exact Relation.ReflTransGen.head ⟨e, trivial, next_step h₁⟩ (ih h)

/-- The kernel after boot, when the memory after the process table is zero. -/
def booted : Kernel := (boot true (powerOn fun _ => .null)).state

theorem booted_booted :
  Booted booted
  := by
  obtain ⟨p, k, hk⟩ := boot_returns (fun _ => .null) true
  refine ⟨_, _, p, hk.trans ?_⟩
  rw [booted, hk, Outcome.state_done]

/-- A run from boot, computed, to a state in which `P` holds. -/
theorem exists_run {P : Kernel → Bool} (l : List Event) (h : (booted.trace l).any P = true) :
  ∃ k, Run.ReachAny Step booted k ∧ P k = true
  := by
  obtain ⟨k, hk, hP⟩ := (Option.any_eq_true P _).mp h
  exact ⟨k, trace_reaches hk, hP⟩

/-- A process waits for the one with the pid 2, and the one with the pid 3 gets a signal. -/
def signalled (signal : BitVec 32) : List Event :=
  [.preempt, .leave, .dispatch, .dispatch, .exec true, .exec true, .waitpid 2, .preempt, .leave,
    .post 3 signal, .dispatch, .dispatch, .preempt, .leave, .dispatch, .dispatch, .dispatch, .dispatch]

/-- The kernel after a list of events, if `good` holds at each of them. -/
def Kernel.traceWhen (good : Kernel → Event → Bool) (k : Kernel) : List Event → Option Kernel
  | [] => some k
  | e :: l => if good k e then (k.next e).bind fun k' => k'.traceWhen good l else none

/-- What is computed so is reached by steps that meet a condition. -/
theorem traceWhen_reaches {good : Kernel → Event → Bool} {C : Kernel → Event → Prop}
    {l : List Event} (hC : ∀ k e, good k e = true → C k e) (h : k.traceWhen good l = some k') :
  Run.Reach Step C k k'
  := by
  induction l generalizing k with
  | nil =>
      cases h
      exact Run.Reach.refl _
  | cons e l ih =>
      unfold Kernel.traceWhen at h
      split at h
      · rename_i hgood
        obtain ⟨k₁, h₁, h⟩ := Option.bind_eq_some_iff.mp h
        exact Relation.ReflTransGen.head ⟨e, hC k e hgood, next_step h₁⟩ (ih h)
      · cases h

/-- A run from boot, computed, whose steps meet a condition. -/
theorem exists_run_when {g : Kernel → Event → Bool} {C : Kernel → Event → Prop}
    {P : Kernel → Bool} (hC : ∀ k e, g k e = true → C k e) (l : List Event)
    (h : (booted.traceWhen g l).any P = true) :
  ∃ k, Run.Reach Step C booted k ∧ P k = true
  := by
  obtain ⟨k, hk, hP⟩ := (Option.any_eq_true P _).mp h
  exact ⟨k, traceWhen_reaches hC hk, hP⟩

/-- A run from boot, computed, with a last step before and after which `P` holds. -/
theorem exists_step {P : Kernel → Kernel → Bool} (l : List Event) (e : Event)
    (h : (booted.trace l).any (fun k => (k.next e).any (P k)) = true) :
  ∃ k k', Run.ReachAny Step booted k ∧ Step k e k' ∧ P k k' = true
  := by
  obtain ⟨k, hk, hnext⟩ := exists_run l h
  obtain ⟨k', hk', hP⟩ := (Option.any_eq_true (P k) _).mp hnext
  exact ⟨k, k', hk, next_step hk', hP⟩

end Process
