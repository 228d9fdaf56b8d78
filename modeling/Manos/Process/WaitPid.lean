import Manos.Process.Queues

/-!
# Waiting for a process

A process that waits because of `syswaitpid` is woken by the process it waits for, provided that
it called `syswaitpid` before the other process began to exit.
-/

namespace Process

open Exec

variable {k k' : Kernel} {p q : ProcId} {e : Event} {r f : List ProcId}
variable {on on' : ProcId → List ProcId}

/-! ### The condition and the invariant -/

/-- The process has run `wakeWaiting` in its exit. -/
def Proc.Exiting (x : Proc) : Prop :=
  match x.ctl with
  | .unlink => True
  | .free _ => True
  | .yield => True
  | _ => False

instance (x : Proc) : Decidable x.Exiting := by
  unfold Proc.Exiting
  split <;> infer_instance

/-- The process will wake those that wait for it. -/
def Proc.Wakeful (x : Proc) : Prop := ¬ x.Exiting ∧ x.state ≠ .dead

instance (x : Proc) : Decidable x.Wakeful := inferInstanceAs (Decidable (_ ∧ _))

/-- The step keeps the queues, and it waits only for processes that have not begun to exit and
were not aborted. -/
structure KeepsWaits (k : Kernel) (e : Event) : Prop extends KeepsQueues k e where
  wakeful : ∀ pid, e = .waitpid pid → 0 ≤ pid → pid ≤ maxProc →
    ∃ q, k.procTable pid = .proc q ∧ (k.procs q).Wakeful

/-- A process that waits because of `syswaitpid` is on a queue, and those on a queue because of
`syswaitpid` wait for a process that will wake them. -/
structure Joined (k : Kernel) (on : ProcId → List ProcId) : Prop where
  linked : ∀ p, (k.procs p).state = .waiting → (k.procs p).cause = .waitpid → ∃ q, p ∈ on q
  wakeful : ∀ p q, p ∈ on q → (k.procs p).cause = .waitpid → (k.procs q).Wakeful

/-! ### One step -/

/-- A process is dead after its signals were handled only if it was, or is aborted. -/
theorem after_dead {x : Proc} (h : x.after = .dead) :
  x.handled = some sigAbort ∨ x.state = .dead
  := by
  rw [Proc.after] at h
  split at h
  · rename_i hs
    exact .inl hs
  · split at h
    · cases h
    · split at h
      · exact .inr h
      · cases h

theorem Signalled.not_dead {x : Proc} (hx : Signalled k p p x) (hd : (k.procs p).state ≠ .dead)
    (hs : (k.procs p).handled ≠ some sigAbort) :
  x.state ≠ .dead
  := by
  rcases hx.self_cases with rfl | ⟨-, rfl⟩
  · intro hdead
    exact (after_dead hdead).elim hs hd
  · nofun

/-- A process stays so that it will wake those that wait for it, until it wakes them. -/
theorem Inv.wakeful_change {x : Proc} (h : Inv k r f) (hl : Live k q) (hq : (k.procs q).Wakeful)
    (hn : ¬ Wakes k e q) (hx : Change k e k' q x) :
  x.Wakeful
  := by
  obtain ⟨hex, hd⟩ := hq
  have hexit : ∀ {c}, (k.procs q).ctl = c → (match c with
      | Ctl.unlink => True
      | .free _ => True
      | .yield => True
      | _ => False) → False := by
    rintro c rfl hc
    exact hex hc
  have habort : Handles k e q → (k.procs q).handled ≠ some sigAbort :=
    fun hh hs => hn (.inr ⟨hh, .inl hs⟩)
  cases hx with
  | same => exact ⟨hex, hd⟩
  | spawn hs => exact absurd hl (h.not_live_spawns hs)
  | waitpid => exact ⟨hex, nofun⟩
  | own hr hown =>
      refine ⟨?_, hd⟩
      cases hown with
      | exitUnlink hc => exact (hexit hc trivial).elim
      | exitFree hc => exact (hexit hc trivial).elim
      | _ => exact id
  | asleep => exact ⟨id, nofun⟩
  | exitWake he hr => exact absurd (.inl ⟨he, hr⟩) hn
  | exitDead he hr hc => exact (hexit hc trivial).elim
  | woken => exact ⟨hex, nofun⟩
  | parent => exact ⟨hex, nofun⟩
  | post => exact ⟨hex, hd⟩
  | alarm => exact ⟨hex, hd⟩
  | preempt he hr hw hx' =>
      have hs := habort (.inl ⟨he, hr⟩)
      have hpaused : ((k.paused q).procs q).state ≠ .dead ∧
          ((k.paused q).procs q).handled ≠ some sigAbort := by
        rcases k.paused_cases q with hp | hp
        · rw [hp]
          exact ⟨hd, hs⟩
        · rw [hp]
          exact ⟨nofun, hs⟩
      refine ⟨?_, hx'.not_dead hpaused.1 hpaused.2⟩
      obtain ⟨s, c, rfl⟩ := hx'.paused_form
      exact hex
  | left => exact ⟨hex, hd⟩
  | recycled hr => exact absurd hr.2.2.2 hd
  | skip hh he hx' =>
      have hdead := hx'.not_dead hd (habort hh)
      obtain ⟨s, c, rfl⟩ := hx'.self_form
      exact ⟨hex, hdead⟩
  | run hh he hx' =>
      obtain ⟨s, c, rfl⟩ := hx'.self_form
      exact ⟨hex, nofun⟩

theorem after_waiting {x : Proc} (h : x.after = .waiting) :
  x.state = .waiting
  := by
  rw [Proc.after] at h
  split at h
  · cases h
  · split at h
    · cases h
    · split at h
      · exact h
      · cases h

/-- Signals make no process wait because of `syswaitpid`. -/
theorem Signalled.was_waiting {x : Proc} (hx : Signalled k p p x) (hs : x.state = .waiting)
    (hc : x.cause = .waitpid) :
  (k.procs p).state = .waiting ∧ (k.procs p).cause = .waitpid
  := by
  rcases hx.self_cases with rfl | ⟨-, rfl⟩
  · exact ⟨after_waiting hs, hc⟩
  · cases hc

/-- A process that waits because of `syswaitpid` after a step did so before, or called it in the
step. -/
theorem Change.waited {x : Proc} (hx : Change k e k' p x) (hs : x.state = .waiting)
    (hc : x.cause = .waitpid) :
  ((k.procs p).state = .waiting ∧ (k.procs p).cause = .waitpid) ∨
    ∃ pid, e = .waitpid pid ∧ Executes k p
  := by
  cases hx with
  | same => exact .inl ⟨hs, hc⟩
  | spawn => cases hs
  | waitpid he hr => exact .inr ⟨_, he, hr⟩
  | own => exact .inl ⟨hs, hc⟩
  | asleep => cases hc
  | exitWake he hr hst =>
      rcases hst with rfl | ⟨rfl, -⟩
      · exact .inl ⟨hs, hc⟩
      · cases hs
  | exitDead => cases hs
  | woken => cases hs
  | parent => cases hc
  | post => exact .inl ⟨hs, hc⟩
  | alarm => exact .inl ⟨hs, hc⟩
  | preempt he hr hw hx' =>
      obtain ⟨hst, hcause⟩ := hx'.was_waiting hs hc
      left
      rcases k.paused_cases p with hp | hp
      · rw [hp] at hst hcause
        exact ⟨hst, hcause⟩
      · rw [hp] at hst
        cases hst
  | left => exact .inl ⟨hs, hc⟩
  | recycled => cases hs
  | skip hh he hx' => exact .inl (hx'.was_waiting hs hc)
  | run => cases hs

/-- Every step that keeps the waits keeps the invariant. -/
theorem Inv.joined_step (h : Inv k r f) (hw : Waiting k on) (hj : Joined k on)
    (hk : KeepsWaits k e) (he : Effect k e k') :
  ∃ on', Waiting k' on' ∧ Joined k' on'
  := by
  obtain ⟨on', hr, hw'⟩ := h.waiting_step hw hk.toKeepsQueues he
  refine ⟨on', hw', ?_, ?_⟩
  · intro p hs hc
    rcases (he.change p).waited hs hc with ⟨hst, hcause⟩ | ⟨pid, rfl, hex⟩
    · obtain ⟨q, hq⟩ := hj.linked p hst hcause
      cases hr with
      | same => exact ⟨q, hq⟩
      | @wake m hwake hready =>
          refine ⟨q, ?_⟩
          rw [Function.update_of_ne]
          · exact hq
          · rintro rfl
            exact hready p hq hs
      | @join a m =>
          refine ⟨q, ?_⟩
          by_cases hqm : q = m
          · rw [hqm, Function.update_self]
            exact List.mem_cons_of_mem _ (hqm ▸ hq)
          · rw [Function.update_of_ne hqm]
            exact hq
      | @continued a m =>
          refine ⟨q, ?_⟩
          by_cases hqm : q = m
          · rw [hqm, Function.update_self]
            exact List.mem_cons_of_mem _ (hqm ▸ hq)
          · rw [Function.update_of_ne hqm]
            exact hq
    · cases hr with
      | same hn hsame =>
          rw [hsame pid rfl] at hs
          exact absurd hs ((h.states.running p hex.rp hex.switching).2.2 hex.pendsv)
      | @join a q _ hev hex' =>
          cases Rp.proc.inj (hex.rp.symm.trans hex'.rp)
          refine ⟨q, ?_⟩
          rw [Function.update_self]
          exact List.mem_cons_self
      | wake hwake => exact absurd hwake (not_wakes nofun nofun nofun)
      | continued hh => exact absurd hh (not_handles nofun nofun)
  · intro p q hp hc
    rcases hr.cases_mem hp with ⟨hp', hn⟩ | ⟨-, hn, ⟨pid, rfl, h₀, h₁, hpid⟩ | ⟨-, hcont⟩⟩
    · refine h.wakeful_change (hw.live p q hp') (hj.wakeful p q hp' ?_) hn (he.change q)
      have hwoken : ∀ m, Wakes k e m → p ∉ on m := by
        intro m hm hpm
        cases hw.queues.one p q m hp' hpm
        exact hn hm
      obtain ⟨-, hcause | hcause⟩ := h.still_waiting hw hk.toKeepsQueues hp' hwoken (he.change p)
      · exact hcause.symm.trans hc
      · rw [hcause] at hc
        cases hc
    · obtain ⟨q', hq', hwakeful⟩ := hk.wakeful pid rfl h₀ h₁
      cases Slot.proc.inj (hpid.symm.trans hq')
      exact h.wakeful_change (hk.waitpid pid q rfl hpid) hwakeful hn (he.change q)
    · rw [hcont] at hc
      cases hc

/-! ### No lost wakeup -/

theorem joined_reachable {k₀ : Kernel} (h₀ : Booted k₀) (h : Run.Reach Step KeepsWaits k₀ k) :
  (∃ r f, Inv k r f) ∧ ∃ on, Waiting k on ∧ Joined k on
  := by
  refine h.invariant (P := fun k => (∃ r f, Inv k r f) ∧ ∃ on, Waiting k on ∧ Joined k on)
    ⟨?_, _, h₀.waiting, ?_, nofun⟩ ?_
  · exact inv_reachable h₀ (Run.Reach.refl k₀)
  · intro p hs
    exact absurd hs (h₀.user p).2
  · rintro t e t' ⟨⟨r, f, hi⟩, on, hw, hj⟩ hk hs
    exact ⟨hi.step hs.effect, hi.joined_step hw hj hk hs.effect⟩

/-- The steps of processes that are started, wait and exit, and of the scheduler. -/
def waitSteps : Event → Bool
  | .exec _ => true
  | .waitpid _ => true
  | .exit => true
  | .preempt => true
  | .leave => true
  | .dispatch => true
  | _ => false

end Process
