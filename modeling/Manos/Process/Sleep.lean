import Manos.Process.Signals

/-!
# Sleeping processes

A process that sleeps has an alarm, or the signal `SigAlarm` is pending, provided that it does not
mask the signal and that no pass of the scheduler takes the signal from it before it waits.
-/

namespace Process

open Exec

variable {k k' : Kernel} {p q : ProcId} {e : Event} {r f : List ProcId}

/-! ### The condition and the invariant -/

/-- The process is in `syssleep`, and its alarm was registered. -/
def Proc.InSleep (x : Proc) : Prop :=
  match x.ctl with
  | .armed _ => True
  | .disarming _ => True
  | .asleep => True
  | _ => False

/-- The process waits because of `syssleep`. -/
def Proc.Asleep (x : Proc) : Prop := x.state = .waiting ∧ x.cause = .sleep

instance (x : Proc) : Decidable x.Asleep := inferInstanceAs (Decidable (_ ∧ _))

/-- The step takes the alarm of no process that sleeps: the signal is not masked when the alarm
is registered, it is not handled before the process waits, it is not posted when it is about to
be reset, and no aborted process is made to go on in `syssleep`. -/
structure KeepsAlarms (k : Kernel) (e : Event) : Prop where
  unmasked : ∀ p millis, e = .sleep millis true → Executes k p →
    (k.procs p).sigMask &&& sigAlarm = 0
  handled : ∀ p, Handles k e p → (k.procs p).InSleep → (k.procs p).handled ≠ some sigAbort →
    ¬ (k.procs p).Pending sigAlarm
  window : ∀ p, e = .alarms → k.Resetting p → (k.procs p).InSleep ∨ (k.procs p).Asleep →
    ¬ k.Rings p k.alarms
  woken : ∀ p q, (k.procs p).InSleep → (k.procs p).state = .dead → Wakes k e q →
    ¬ k.OnQueue q (.nextWaitQ p)
  parent : ∀ p q, (k.procs p).InSleep → (k.procs p).state = .dead → Handles k e q →
    (k.procs q).handled = some sigContinue → k.procTable (k.procs q).ppid ≠ .proc p

/-- An alarm of `p` is on the list, or its signal is pending and stays so. -/
structure Armed (k : Kernel) (p : ProcId) : Prop where
  unmasked : (k.procs p).sigMask &&& sigAlarm = 0
  alarm : (∃ a ∈ k.alarms, a.pid = (k.procs p).pid) ∨
    ((k.procs p).Pending sigAlarm ∧ ¬ k.Resetting p)

/-- Processes in `syssleep` can be woken. -/
def Alarmed (k : Kernel) : Prop :=
  ∀ p, Live k p → (k.procs p).state ≠ .dead → (k.procs p).InSleep ∨ (k.procs p).Asleep →
    Armed k p

/-! ### The alarms -/

/-- What a step does to the alarms. -/
theorem Effect.alarms_cases (h : Effect k e k') :
  (∃ millis opens a q, e = .sleep millis opens ∧ Executes k q ∧ a.pid = (k.procs q).pid ∧
      k'.alarms = k.alarms ++ [a]) ∨
    (e = .alarms ∧ k'.alarms = k.alarms.filter fun a => ¬ a.wakeTime ≤ k.systime) ∨
    (k'.alarms = k.alarms ∧ ∀ millis opens, e = .sleep millis opens → k' = k)
  := by
  cases h with
  | sleep hr hd =>
      refine .inl ⟨_, _, ⟨_, _⟩, _, rfl, hr, ?_, rfl⟩
      unfold Kernel.opened Kernel.setProc
      simp
  | sleepNone => exact .inr (.inr ⟨rfl, fun _ _ _ => rfl⟩)
  | alarms => exact .inr (.inl ⟨rfl, rfl⟩)
  | exitWake hr hc hw => exact .inr (.inr ⟨(wakeWaiting_woken hw).still.alarms, nofun⟩)
  | preempt hr hw hh =>
      have hstill := (paused_still _ k).trans (handleSignals_still hh)
      exact .inr (.inr ⟨hstill.alarms, nofun⟩)
  | skip hr hs hd hh => exact .inr (.inr ⟨(handleSignals_still hh).alarms, nofun⟩)
  | run hr hs hd hh => exact .inr (.inr ⟨(handleSignals_still hh).alarms, nofun⟩)
  | _ => exact .inr (.inr ⟨rfl, nofun⟩)

/-- An alarm stays on the list, unless it rings. -/
theorem Effect.alarm_kept {a : Alarm} (h : Effect k e k') (ha : a ∈ k.alarms)
    (hn : e = .alarms → ¬ a.wakeTime ≤ k.systime) :
  a ∈ k'.alarms
  := by
  rcases h.alarms_cases with ⟨_, _, b, _, -, -, -, hk'⟩ | ⟨he, hk'⟩ | ⟨hk', -⟩
  · rw [hk']
    exact List.mem_append_left [b] ha
  · rw [hk', List.mem_filter]
    exact ⟨ha, by simpa using hn he⟩
  · rw [hk']
    exact ha

/-- When its alarm runs out the signal is posted to a process. -/
theorem Inv.rings {a : Alarm} (h : Inv k r f) (hp : Live k p) (ha : a ∈ k.alarms)
    (hpid : a.pid = (k.procs p).pid) (ht : a.wakeTime ≤ k.systime) :
  k.Rings p k.alarms
  := by
  obtain ⟨h₀, h₁⟩ := h.table.pid p
  have hmax := h.table.nextPid_le
  rw [← hpid] at h₀ h₁
  refine ⟨a, ha, ht, h₀, h₁.trans hmax, ?_⟩
  rw [hpid]
  exact hp

/-- A process that waits is not free. -/
theorem Inv.live (h : Inv k r f) (hp : (k.procs p).Asleep) :
  Live k p
  := by
  rw [h.table.live_iff]
  intro hf
  have hfree := h.states.free p hf
  rw [hp.1] at hfree
  exact absurd hfree (by decide)

/-- Processes come into the table when they are made. -/
theorem Inv.live_step (h : Inv k r f) (he : Effect k e k') (hp : Live k' p) :
  Live k p ∨ Spawns k e p
  := by
  rcases he.free_cases with ⟨tty, rfl⟩ | ⟨q, hr⟩ | ⟨-, hs⟩
  · obtain ⟨q, f', rfl, hspawn, hinv⟩ := h.exec he
    by_cases hpq : p = q
    · right
      rw [hpq]
      exact hspawn
    · left
      rw [hinv.table.live_iff] at hp
      rw [h.table.live_iff, List.mem_cons, not_or]
      exact ⟨hpq, hp⟩
  · obtain ⟨r₁, r₂, -, hinv⟩ := h.recycle hr he
    left
    rw [hinv.table.live_iff, List.mem_append, not_or] at hp
    rw [h.table.live_iff]
    exact hp.1
  · left
    rw [Live, hs.procTable, hs.pid] at hp
    exact hp

/-- Without a portal for the timer no alarm is registered. -/
theorem sleep_not_opened {millis : BitVec 32} (h : Step k (.sleep millis false) k') :
  k' = k
  := by
  cases h with
  | @sleep q _ _ _ hr h =>
      rw [syssleep, bind_eq_done_iff] at h
      obtain ⟨fd, k₁, hopen, h⟩ := h
      rw [__sysopen, bind_done (get_apply k)] at hopen
      cases hfd : (List.range maxFd).find? fun fd => (k.procs q).descriptorTable fd = none with
      | none =>
          rw [hfd] at hopen
          cases hopen
          cases h
          rfl
      | some n =>
          rw [hfd] at hopen
          cases hopen
          cases h
          rfl

/-! ### One step -/

/-- What keeps a process armed. -/
theorem Armed.mono (h : Armed k p) (hm : (k'.procs p).sigMask = (k.procs p).sigMask)
    (hpid : (k'.procs p).pid = (k.procs p).pid)
    (ha : ∀ a ∈ k.alarms, a.pid = (k.procs p).pid →
      a ∈ k'.alarms ∨ ((k'.procs p).Pending sigAlarm ∧ ¬ k'.Resetting p))
    (hs : (k.procs p).Pending sigAlarm ∧ ¬ k.Resetting p →
      (k'.procs p).Pending sigAlarm ∧ ¬ k'.Resetting p) :
  Armed k' p
  := by
  constructor
  · rw [hm]
    exact h.unmasked
  · rcases h.alarm with ⟨a, hmem, ha'⟩ | hpend
    · rcases ha a hmem ha' with hmem' | hpend'
      · exact .inl ⟨a, hmem', ha'.trans hpid.symm⟩
      · exact .inr hpend'
    · exact .inr (hs hpend)

/-- The signals of one process are handled at a time. -/
theorem handles_unique (h : Handles k e p) (h' : Handles k e q) :
  p = q
  := by
  rcases h with ⟨rfl, hr⟩ | ⟨rfl, -, ⟨s, hs⟩, -⟩
  · rcases h' with ⟨-, hr'⟩ | ⟨he, -⟩
    · exact Rp.proc.inj (hr.symm.trans hr')
    · cases he
  · rcases h' with ⟨he, -⟩ | ⟨-, -, ⟨s', hs'⟩, -⟩
    · cases he
    · have := hs.symm.trans hs'
      simp only [Option.some.injEq, Prod.mk.injEq, QNode.proc.injEq] at this
      exact this.1

/-- A process whose signals are not handled stays armed, when none of its alarms rings. -/
theorem Armed.step (h : Armed k p) (he : Effect k e k')
    (hm : (k'.procs p).sigMask = (k.procs p).sigMask)
    (hpid : (k'.procs p).pid = (k.procs p).pid)
    (hs : (k.procs p).Pending sigAlarm → (k'.procs p).Pending sigAlarm) (hn : ¬ Handles k e p)
    (hr : e = .alarms → ∀ a ∈ k.alarms, a.pid = (k.procs p).pid → ¬ a.wakeTime ≤ k.systime) :
  Armed k' p
  := by
  refine h.mono hm hpid ?_ ?_
  · intro a ha hp
    exact .inl (he.alarm_kept ha fun hev => hr hev a ha hp)
  · rintro ⟨hp, hnr⟩
    refine ⟨hs hp, ?_⟩
    intro hr'
    rcases he.resetting hr' with hr' | hh
    · exact hnr hr'
    · exact hn hh

/-- A process that is armed, but has no pending signal, has an alarm, and keeps it. -/
theorem Armed.keep (h : Armed k p) (he : Effect k e k')
    (hm : (k'.procs p).sigMask = (k.procs p).sigMask)
    (hpid : (k'.procs p).pid = (k.procs p).pid)
    (hs : ¬ ((k.procs p).Pending sigAlarm ∧ ¬ k.Resetting p)) (hev : e ≠ .alarms) :
  Armed k' p
  := by
  refine h.mono hm hpid ?_ (fun hp => absurd hp hs)
  intro a ha _
  exact .inl (he.alarm_kept ha fun he => absurd he hev)

/-- What becomes of a process whose signals are handled. -/
theorem Signalled.self_cases {x : Proc} (hx : Signalled k p p x) :
  x = { k.procs p with state := (k.procs p).after } ∨
    ((k.procs p).handled = some sigContinue ∧
      x = { k.procs p with state := .waiting, cause := .continued })
  := by
  cases hx with
  | same hq => exact absurd rfl hq
  | self => exact .inl rfl
  | selfParent _ hs => exact .inr ⟨hs, rfl⟩
  | woken hq => exact absurd rfl hq
  | parent hq => exact absurd rfl hq

/-- Signals change the state and the cause of a process. -/
theorem Signalled.self_same {x : Proc} (hx : Signalled k p p x) :
  x.sigMask = (k.procs p).sigMask ∧ x.pid = (k.procs p).pid
  := by
  rcases hx.self_cases with rfl | ⟨-, rfl⟩
  · exact ⟨rfl, rfl⟩
  · exact ⟨rfl, rfl⟩

/-- A process that still sleeps after its signals were handled had no `SigAlarm` among them. -/
theorem Signalled.sleeps {x : Proc} (hx : Signalled k p p x) (hdead : x.state ≠ .dead)
    (hp : (k.procs p).InSleep → (k.procs p).handled ≠ some sigAbort →
      ¬ (k.procs p).Pending sigAlarm)
    (hs : x.InSleep ∨ x.Asleep) :
  ¬ (k.procs p).Pending sigAlarm ∧ ((k.procs p).InSleep ∨ (k.procs p).Asleep)
  := by
  rcases hx.self_cases with rfl | ⟨hc, rfl⟩
  · have habort : (k.procs p).handled ≠ some sigAbort := by
      intro h
      exact hdead (if_pos h)
    rcases hs with hs | ⟨hs, hcause⟩
    · exact ⟨hp hs habort, .inl hs⟩
    · change (k.procs p).after = .waiting at hs
      by_cases hnone : (k.procs p).handled = none
      · unfold Proc.after at hs
        rw [hnone, if_neg nofun, if_neg nofun, if_pos rfl] at hs
        refine ⟨fun hpend => handled_ne_none (by decide) hpend hnone, .inr ⟨hs, hcause⟩⟩
      · rw [Proc.after, if_neg habort, if_neg hnone] at hs
        split at hs
        · cases hs
        · cases hs
  · rcases hs with hs | ⟨-, hcause⟩
    · exact ⟨hp hs (by rw [hc]; decide), .inl hs⟩
    · cases hcause

/-- `scheduleProc` changes the state of the process that ran, if it was running. -/
theorem Kernel.paused_cases (p : ProcId) (k : Kernel) :
  (k.paused p).procs p = k.procs p ∨ (k.paused p).procs p = { k.procs p with state := .ready }
  := by
  rw [Kernel.paused]
  split
  · right
    exact Kernel.setProc_self _ _ _
  · left
    rfl

/-- A new process is ready. -/
theorem Effect.spawned (h : Effect k e k') (hs : Spawns k e p) :
  (k'.procs p).state = .ready ∧ (k'.procs p).ctl = .user
  := by
  obtain ⟨tty, rfl, hp⟩ := hs
  cases h with
  | exec hr hf =>
      cases hf.symm.trans hp
      simp [Kernel.queued]
  | execOpen hr hf =>
      cases hf.symm.trans hp
      simp [Kernel.queued]

/-- A process in its own code is not in `syssleep`. -/
theorem not_inSleep {x : Proc} (h : x.ctl = .user) :
  ¬ x.InSleep
  := by
  rw [Proc.InSleep, h]
  exact id

/-- Every step that keeps the alarms keeps the processes in `syssleep` armed. -/
theorem Inv.alarmed_step (h : Inv k r f) (ha : Alarmed k) (hk : KeepsAlarms k e)
    (hstep : Step k e k') :
  Alarmed k'
  := by
  intro p hlive hdead hsleep
  have he := hstep.effect
  have hl : Live k p := by
    rcases h.live_step he hlive with hl | hspawn
    · exact hl
    · obtain ⟨hready, huser⟩ := he.spawned hspawn
      rcases hsleep with hsleep | ⟨hw, -⟩
      · exact absurd hsleep (not_inSleep huser)
      · exact absurd (hready.symm.trans hw) nofun
  have hrun : Runs k p → ((k.procs p).state = .dead → (k.procs p).ctl = .yield) ∧
      (k.procs p).state ≠ .waiting := by
    intro hr
    have := h.states.running p hr.rp hr.switching
    exact ⟨this.1, this.2.2 hr.pendsv⟩
  have hchange := he.change p
  generalize hx : k'.procs p = x at hchange hdead hsleep
  cases hchange with
  | same hu =>
      apply (ha p hl hdead hsleep).step he
      · rw [hx]
      · rw [hx]
      · rw [hx]
        exact id
      · exact hu.handles
      · intro hev a ha hpid ht
        exact hu.rings hev (h.rings hl ha hpid ht)
  | spawn =>
      rcases hsleep with hsleep | ⟨hw, -⟩
      · exact absurd hsleep (not_inSleep rfl)
      · cases hw
  | waitpid hev hr =>
      rcases hsleep with hsleep | ⟨-, hcause⟩
      · exact absurd hsleep (not_inSleep hr.ctl)
      · cases hcause
  | own hr hown =>
      have hnw : ¬ (k.procs p).Asleep := fun hs => (hrun hr).2 hs.1
      have hin := hsleep.resolve_right hnw
      have hbefore : (k.procs p).InSleep → e = .resume → Armed k' p := by
        intro hin hev
        apply (ha p hl hdead (.inl hin)).step he
        · rw [hx]
          cases hown with
          | mask hc hm => rcases hm with ⟨n, hm⟩ | ⟨n, hm⟩ | ⟨n, hm⟩ <;> cases hev.symm.trans hm
          | _ => rfl
        · rw [hx]
        · rw [hx]
          exact id
        · rw [hev]
          exact not_handles nofun nofun
        · rw [hev]
          nofun
      cases hown with
      | @sleep millis opens fd hc hd =>
          cases opens with
          | false =>
              obtain rfl := sleep_not_opened hstep
              rw [hx] at hc
              cases hc
          | true =>
              rcases he.alarms_cases with ⟨_, _, a, q, hev, hq, hpid, hk'⟩ | ⟨hev, -⟩ | ⟨-, hsame⟩
              · cases Rp.proc.inj (hq.rp.symm.trans hr.rp)
                constructor
                · rw [hx]
                  exact hk.unmasked p _ rfl hq
                · left
                  refine ⟨a, ?_, ?_⟩
                  · rw [hk']
                    exact List.mem_append_right _ (List.mem_singleton_self a)
                  · rw [hpid, hx]
              · cases hev
              · obtain rfl := hsame _ _ rfl
                rw [hx] at hc
                cases hc
      | armed hc => exact hbefore (by rw [Proc.InSleep, hc]; trivial) rfl
      | armedNone hc => exact hbefore (by rw [Proc.InSleep, hc]; trivial) rfl
      | disarming hc => exact hbefore (by rw [Proc.InSleep, hc]; trivial) rfl
      | exitUnlink hc => exact hin.elim
      | exitFree hc hi => exact hin.elim
      | closeFile hc hd => exact hin.elim
      | openFile hc hd => exact absurd hin (not_inSleep rfl)
      | closing hc => exact absurd hin (not_inSleep rfl)
      | mask hc hm => exact absurd hin (not_inSleep rfl)
  | asleep hev hr hc =>
      subst hev
      have hbefore : Armed k p := by
        refine ha p hl (fun hd => ?_) (.inl (by rw [Proc.InSleep, hc]; trivial))
        have := (hrun hr).1 hd
        rw [hc] at this
        cases this
      apply hbefore.step he
      · rw [hx]
      · rw [hx]
      · rw [hx]
        exact id
      · exact not_handles nofun nofun
      · nofun
  | exitWake hev hr hs =>
      rcases hsleep with hc | ⟨hw, -⟩
      · exact hc.elim
      · rcases hs with rfl | ⟨rfl, -⟩
        · exact absurd hw (hrun hr.toRuns).2
        · cases hw
  | exitDead => exact absurd rfl hdead
  | @woken q hw hq hon =>
      have hin : (k.procs p).InSleep := hsleep.resolve_right fun hs => by cases hs.1
      have hbefore := ha p hl (fun hd => hk.woken p q hin hd hw hon) (.inl hin)
      apply hbefore.step he
      · rw [hx]
      · rw [hx]
      · rw [hx]
        exact id
      · rcases hw with ⟨rfl, -⟩ | ⟨hh, -⟩
        · exact not_handles nofun nofun
        · exact fun hh' => hq (handles_unique hh' hh)
      · rcases hw with ⟨rfl, -⟩ | ⟨⟨rfl, -⟩ | ⟨rfl, -⟩, -⟩
        · nofun
        · nofun
        · nofun
  | @parent q hh hq hsig hp =>
      have hin : (k.procs p).InSleep := hsleep.resolve_right fun hs => by cases hs.2
      have hbefore := ha p hl (fun hd => hk.parent p q hin hd hh hsig hp) (.inl hin)
      apply hbefore.step he
      · rw [hx]
      · rw [hx]
      · rw [hx]
        exact id
      · exact fun hh' => hq (handles_unique hh' hh)
      · rcases hh with ⟨rfl, -⟩ | ⟨rfl, -⟩
        · nofun
        · nofun
  | post hev =>
      subst hev
      apply (ha p hl hdead hsleep).step he
      · rw [hx]
      · rw [hx]
      · rw [hx]
        exact pending_or _
      · exact not_handles nofun nofun
      · nofun
  | alarm hev hring =>
      subst hev
      have hbefore := ha p hl hdead hsleep
      constructor
      · rw [hx]
        exact hbefore.unmasked
      · right
        rw [hx]
        refine ⟨pending_post (by decide) (by decide) hbefore.unmasked, ?_⟩
        intro hr
        rcases he.resetting hr with hr | hh
        · exact hk.window p rfl hr hsleep hring
        · exact absurd hh (not_handles nofun nofun)
  | @preempt x hev hr hw hx' =>
      subst hev
      have hh : Handles k .preempt p := .inl ⟨rfl, hr⟩
      have hctl := (h.states.running p hr hw).1
      have hpaused : ((k.paused p).procs p).InSleep → ((k.paused p).procs p).handled ≠ some sigAbort →
          ¬ ((k.paused p).procs p).Pending sigAlarm := by
        rcases k.paused_cases p with hp | hp
        · rw [hp]
          exact hk.handled p hh
        · rw [hp]
          exact hk.handled p hh
      obtain ⟨hnp, hbefore⟩ := hx'.sleeps hdead hpaused hsleep
      obtain ⟨hm, hpid⟩ := hx'.self_same
      have hsame : ¬ (k.procs p).Pending sigAlarm ∧ ((k.procs p).InSleep ∨ (k.procs p).Asleep) ∧
          x.sigMask = (k.procs p).sigMask ∧ x.pid = (k.procs p).pid := by
        rcases k.paused_cases p with hp | hp
        · rw [hp] at hnp hbefore hm hpid
          exact ⟨hnp, hbefore, hm, hpid⟩
        · rw [hp] at hnp hbefore hm hpid
          exact ⟨hnp, .inl (hbefore.resolve_right fun hs => by cases hs.1), hm, hpid⟩
      obtain ⟨hnp, hbefore, hm, hpid⟩ := hsame
      have hnd : (k.procs p).state ≠ .dead := by
        intro hd
        rcases hbefore with hin | ⟨hw, -⟩
        · rw [Proc.InSleep, hctl hd] at hin
          exact hin
        · exact absurd (hd.symm.trans hw) nofun
      apply (ha p hl hnd hbefore).keep he
      · rw [hx]
        exact hm
      · rw [hx]
        exact hpid
      · exact fun hs => hnp hs.1
      · nofun
  | left hev hr hw =>
      subst hev
      apply (ha p hl hdead hsleep).keep he
      · rw [hx]
      · rw [hx]
      · exact fun hs => hs.2 ⟨hw, hr⟩
      · nofun
  | recycled => exact absurd rfl hdead
  | skip hh hev hx' hn =>
      subst hev
      obtain ⟨hnp, hbefore⟩ := hx'.sleeps hdead (hk.handled p hh) hsleep
      apply (ha p hl hh.alive hbefore).keep he
      · rw [hx]
        exact hx'.self_same.1
      · rw [hx]
        exact hx'.self_same.2
      · exact fun hs => hnp hs.1
      · nofun
  | @run y hh hev hx' hn =>
      subst hev
      have hin : y.InSleep := hsleep.resolve_right fun hs => by cases hs.1
      obtain ⟨hnp, hbefore⟩ := hx'.sleeps (by rw [hn]; nofun) (hk.handled p hh) (.inl hin)
      apply (ha p hl hh.alive hbefore).keep he
      · rw [hx]
        exact hx'.self_same.1
      · rw [hx]
        exact hx'.self_same.2
      · exact fun hs => hnp hs.1
      · nofun

/-! ### A sleeping process can be woken -/

/-- After boot no process has left its own code, and none waits. -/
theorem Booted.user (h : Booted k) (p : ProcId) :
  (k.procs p).ctl = .user ∧ (k.procs p).state ≠ .waiting
  := by
  obtain ⟨freelist, memory, tty, q, -, hsched⟩ := h.spawned
  by_cases hpq : p = q
  · subst hpq
    rcases (schedProc_taken hsched).2 with rfl | ⟨fd, -, rfl⟩
    · simp [Kernel.queued]
    · simp [Kernel.queued]
  · rw [schedProc_procs_of_ne hsched hpq]
    refine ⟨rfl, ?_⟩
    rintro ⟨⟩

/-- In every state of a run whose steps keep the alarms, a process that waits because of
`syssleep` has an alarm on the list, or its `SigAlarm` is pending. -/
theorem sleeper_can_be_woken {k₀ k : Kernel} {p : ProcId} (h₀ : Booted k₀)
    (h : Run.Reach Step KeepsAlarms k₀ k) (hp : (k.procs p).Asleep) :
  (∃ a ∈ k.alarms, a.pid = (k.procs p).pid) ∨ (k.procs p).Pending sigAlarm
  := by
  have hinv : (∃ r f, Inv k r f) ∧ Alarmed k := by
    refine h.invariant (P := fun k => (∃ r f, Inv k r f) ∧ Alarmed k) ⟨?_, ?_⟩ ?_
    · exact inv_reachable h₀ (Run.Reach.refl k₀)
    · intro q _ _ hs
      obtain ⟨hctl, hstate⟩ := h₀.user q
      rcases hs with hin | ⟨hw, -⟩
      · exact absurd hin (not_inSleep hctl)
      · exact absurd hw hstate
    · rintro t e t' ⟨⟨r, f, hi⟩, ha⟩ hk hs
      exact ⟨hi.step hs.effect, hi.alarmed_step ha hk hs⟩
  obtain ⟨⟨r, f, hi⟩, ha⟩ := hinv
  have harmed := ha p (hi.live hp) (by rw [hp.1]; nofun) (.inr hp)
  rcases harmed.alarm with halarm | ⟨hpend, -⟩
  · exact .inl halarm
  · exact .inr hpend

/-- While every process is in its own code and masks nothing, all steps keep the alarms. -/
theorem keepsAlarms_user (h : ∀ p, (k.procs p).ctl = .user ∧ (k.procs p).sigMask = 0)
    (he : e ≠ .alarms) :
  KeepsAlarms k e
  := by
  constructor
  · intro p millis _ _
    rw [(h p).2]
    exact BitVec.zero_and
  · intro p _ hin
    exact absurd hin (not_inSleep (h p).1)
  · intro p hev
    exact absurd hev he
  · intro p q hin
    exact absurd hin (not_inSleep (h p).1)
  · intro p q hin
    exact absurd hin (not_inSleep (h p).1)

/-- The steps of the running process in `syssleep` keep the alarms. -/
theorem keepsAlarms_resume :
  KeepsAlarms k .resume
  := by
  constructor
  · nofun
  · exact fun p hh => absurd hh (not_handles nofun nofun)
  · nofun
  · rintro p q - - (⟨he, -⟩ | ⟨hh, -⟩)
    · cases he
    · exact absurd hh (not_handles nofun nofun)
  · exact fun p q _ _ hh => absurd hh (not_handles nofun nofun)

theorem sleeper_can_be_woken_torgo :
  ∃ k, Run.Reach Step KeepsAlarms booted k ∧ (k.procs 126).Asleep ∧
    ((∃ a ∈ k.alarms, a.pid = (k.procs 126).pid) ∨ (k.procs 126).Pending sigAlarm)
  := by
  obtain ⟨k, hk, hP⟩ := exists_run_when (C := KeepsAlarms) (P := fun k => (k.procs 126).Asleep)
    (g := fun k e => match e with
      | .resume => true
      | .alarms => false
      | _ => ∀ p, (k.procs p).ctl = .user ∧ (k.procs p).sigMask = 0)
    (by
      intro k e hgood
      cases e with
      | resume => exact keepsAlarms_resume
      | alarms => cases hgood
      | _ => exact keepsAlarms_user (of_decide_eq_true hgood) nofun)
    [.preempt, .leave, .dispatch, .dispatch, .sleep 5 true, .resume, .resume, .resume]
    (by decide +kernel)
  have hp := of_decide_eq_true hP
  exact ⟨k, hk, hp, sleeper_can_be_woken booted_booted hk hp⟩

/-- The alarm of a process rings and its signal is handled while the process is still in
`syssleep`: it waits without an alarm. -/
theorem sleeper_not_woken :
  ¬ ∀ (k₀ k : Kernel) (p : ProcId), Booted k₀ → Run.ReachAny Step k₀ k → (k.procs p).Asleep →
    (∃ a ∈ k.alarms, a.pid = (k.procs p).pid) ∨ (k.procs p).Pending sigAlarm
  := by
  intro hclaim
  obtain ⟨k, hk, hP⟩ := exists_run
    (P := fun k => (k.procs 126).Asleep ∧ k.alarms.isEmpty ∧ ¬ (k.procs 126).Pending sigAlarm)
    [.preempt, .leave, .dispatch, .dispatch, .sleep 0 true, .alarms, .preempt, .leave, .dispatch,
      .dispatch, .resume, .resume, .resume] (by decide +kernel)
  obtain ⟨hp, hempty, hpend⟩ := of_decide_eq_true hP
  rcases hclaim booted k 126 booted_booted hk hp with ⟨a, ha, -⟩ | h
  · rw [List.isEmpty_iff.mp hempty] at ha
    cases ha
  · exact hpend h

end Process
