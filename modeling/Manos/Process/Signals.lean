import Manos.Process.States

/-!
# Posted signals

What becomes of the signals `SigContinue`, `SigStop` and `SigAlarm` that are posted to a
process.
-/

namespace Process

open Exec

variable {k k' : Kernel} {p q : ProcId} {e : Event} {s : BitVec 32}

/-- The signals that do not end a process. -/
def lasting : List (BitVec 32) := [sigContinue, sigStop, sigAlarm]

/-- The signal `s` is posted to the process `p` in the step, and `p` does not mask it. -/
def Posts (k : Kernel) (e : Event) (p : ProcId) (s : BitVec 32) : Prop :=
  (k.procs p).sigMask &&& s = 0 ∧
    ((∃ pid signal, e = .post pid signal ∧ 0 ≤ pid ∧ pid ≤ maxProc ∧
        k.procTable pid = .proc p ∧ signal &&& s = s) ∨
      (e = .alarms ∧ k.Rings p k.alarms ∧ s = sigAlarm))

/-- The effect of the signal `s` on the process `p` is applied in the step. -/
def Applies (k : Kernel) (e : Event) (p : ProcId) (s : BitVec 32) : Prop :=
  Handles k e p ∧ (k.procs p).handled = some s

/-- The process `p` is aborted in the step, recycled, or made anew. -/
def Ends (k : Kernel) (e : Event) (p : ProcId) : Prop :=
  Applies k e p sigAbort ∨ Recycles k e p ∨ Spawns k e p

/-- The scheduler has handled the signals of `p`, and not yet reset them. -/
def Kernel.Resetting (p : ProcId) (k : Kernel) : Prop := k.switching = true ∧ k.rp = .proc p

/-- The step drops no signal: of a process that is not aborted the signals are handled only
when one is pending, and none is posted to a process whose signals are about to be reset. -/
structure KeepsSignals (k : Kernel) (e : Event) : Prop where
  single : ∀ p s, Handles k e p → (k.procs p).handled ≠ some sigAbort → s ∈ lasting →
    (k.procs p).Pending s → (k.procs p).handled = some s
  window : ∀ p s, Posts k e p s → ¬ k.Resetting p

/-! ### Pending signals -/

theorem lasting_cases (hs : s ∈ lasting) :
  s = sigContinue ∨ s = sigStop ∨ s = sigAlarm
  := by
  simpa [lasting] using hs

/-- A process with a pending signal has one to be handled. -/
theorem handled_ne_none {x : Proc} (hs : s ∈ lasting) (hp : x.Pending s) :
  x.handled ≠ none
  := by
  unfold Proc.handled
  rcases lasting_cases hs with rfl | rfl | rfl
  · split_ifs <;> simp
  · split_ifs <;> simp
  · split_ifs <;> simp

/-- What is pending stays so when more is posted. -/
theorem pending_or {x : Proc} (m : BitVec 32) (hp : x.Pending s) :
  ({ x with sigPending := x.sigPending ||| m } : Proc).Pending s
  := by
  intro h₀
  apply hp
  ext i hi
  have hbit := congrArg (fun v : BitVec 32 => v[i]) h₀
  simp at hbit ⊢
  exact fun hx => (hbit (.inl hx))

/-- A signal that is posted and not masked is pending. -/
theorem pending_post {x : Proc} {signal : BitVec 32} (hs : s ≠ 0) (hsig : signal &&& s = s)
    (hm : x.sigMask &&& s = 0) :
  ({ x with sigPending := x.sigPending ||| (signal &&& ~~~ x.sigMask) } : Proc).Pending s
  := by
  intro h₀
  apply hs
  ext i hi
  have hbit := congrArg (fun v : BitVec 32 => v[i]) h₀
  have hsbit := congrArg (fun v : BitVec 32 => v[i]) hsig
  have hmbit := congrArg (fun v : BitVec 32 => v[i]) hm
  simp at hbit hsbit hmbit ⊢
  cases hsi : s[i] with
  | false => rfl
  | true =>
      have hmask : x.sigMask[i] = false := by
        cases hmi : x.sigMask[i] with
        | false => rfl
        | true => exact absurd hsi (by simp [hmbit hmi])
      exact absurd hsi (by simp [hbit (.inr ⟨hsbit hsi, hmask⟩)])

/-! ### No signal is lost -/

/-- A pending signal of a process is handled in no step that neither applies it nor ends the
process. -/
theorem KeepsSignals.not_handles (hk : KeepsSignals k e) (hs : s ∈ lasting)
    (hp : (k.procs p).Pending s) (ha : ¬ Applies k e p s) (hn : ¬ Ends k e p) :
  ¬ Handles k e p
  := by
  intro hh
  have habort : (k.procs p).handled ≠ some sigAbort := fun h => hn (.inl ⟨hh, h⟩)
  exact ha ⟨hh, hk.single p s hh habort hs hp⟩

/-- A pending signal stays so in such a step. -/
theorem KeepsSignals.change {x : Proc} (hk : KeepsSignals k e) (hs : s ∈ lasting)
    (hp : (k.procs p).Pending s) (hr : ¬ k.Resetting p) (ha : ¬ Applies k e p s)
    (hn : ¬ Ends k e p) (hx : Change k e k' p x) :
  x.Pending s
  := by
  have hh := hk.not_handles hs hp ha hn
  cases hx with
  | same => exact hp
  | spawn hsp => exact absurd (.inr (.inr hsp)) hn
  | waitpid => exact hp
  | own => exact hp
  | asleep => exact hp
  | exitWake => exact hp
  | exitDead => exact hp
  | woken => exact hp
  | parent => exact hp
  | post => exact pending_or _ hp
  | alarm => exact pending_or _ hp
  | preempt he hrp => exact absurd (.inl ⟨he, hrp⟩) hh
  | left he hrp hw => exact absurd ⟨hw, hrp⟩ hr
  | recycled hrec => exact absurd (.inr (.inl hrec)) hn
  | skip hh' => exact absurd hh' hh
  | run hh' => exact absurd hh' hh

/-- The signals of a process are about to be reset only after they were handled. -/
theorem Effect.resetting (h : Effect k e k') (hr : k'.Resetting p) :
  k.Resetting p ∨ Handles k e p
  := by
  obtain ⟨hs, hp⟩ := hr
  cases h with
  | exitWake hr hc hw =>
      have hstill := (wakeWaiting_woken hw).still
      exact .inl ⟨hstill.switching.symm.trans hs, hstill.rp.symm.trans hp⟩
  | preempt hr hw hh =>
      have hstill := (paused_still _ k).trans (handleSignals_still hh)
      exact .inr (.inl ⟨rfl, hstill.rp.symm.trans hp⟩)
  | preemptNone hr hw => exact .inr (.inl ⟨rfl, hp⟩)
  | leave => cases hs
  | leaveNone => cases hs
  | skip hr hsc hd hh =>
      have hstill := handleSignals_still hh
      exact .inl ⟨hstill.switching.symm.trans hs, hstill.rp.symm.trans hp⟩
  | run hr hsc hd hh =>
      right
      cases hp
      exact .inr ⟨rfl, hr, ⟨_, hsc⟩, hd⟩
  | _ => exact .inl ⟨hs, hp⟩

/-- A posted signal is pending after the step. -/
theorem Posts.pending (h : Posts k e p s) (hs : s ∈ lasting) (he : Effect k e k') :
  (k'.procs p).Pending s
  := by
  have hne : s ≠ 0 := by
    rcases lasting_cases hs with rfl | rfl | rfl
    · decide
    · decide
    · decide
  obtain ⟨hm, ⟨pid, signal, rfl, h₀, h₁, hp, hsig⟩ | ⟨rfl, hring, rfl⟩⟩ := h
  · cases he with
    | post hsc _ _ hp' =>
        cases hp.symm.trans hp'
        rw [Kernel.setProc_self]
        exact pending_post hne hsig hm
    | postNone hsc hpid => omega
  · cases he with
    | alarms hsc =>
        change ((k.rung k.alarms).procs p).Pending sigAlarm
        rw [Kernel.rung_of_rings hring]
        exact pending_post hne (by decide) hm

/-- To post a signal handles none. -/
theorem Posts.not_handles (h : Posts k e p s) :
  ∀ q, ¬ Handles k e q
  := by
  intro q
  obtain ⟨-, ⟨pid, signal, rfl, -⟩ | ⟨rfl, -⟩⟩ := h
  · exact Process.not_handles nofun nofun
  · exact Process.not_handles nofun nofun

/-- In every run whose steps drop no signal, a signal that was posted to a process while it did
not mask it is pending until its effect is applied, unless the process is aborted before. -/
theorem no_signal_lost {k k₁ k' : Kernel} {e : Event} {p : ProcId} {s : BitVec 32}
    (hs : s ∈ lasting) (hpost : Posts k e p s)
    (hk : KeepsSignals k e) (hstep : Step k e k₁)
    (hrun : Run.Reach Step (fun t e => KeepsSignals t e ∧ ¬ Applies t e p s ∧ ¬ Ends t e p)
      k₁ k') :
  (k'.procs p).Pending s
  := by
  have hinv : (k'.procs p).Pending s ∧ ¬ k'.Resetting p := by
    refine hrun.invariant (P := fun k => (k.procs p).Pending s ∧ ¬ k.Resetting p) ?_ ?_
    · refine ⟨hpost.pending hs hstep.effect, ?_⟩
      intro hr
      rcases hstep.effect.resetting hr with hr | hh
      · exact hk.window p s hpost hr
      · exact hpost.not_handles p hh
    · rintro t e t' ⟨hp, hr⟩ ⟨hkt, ha, hn⟩ ht
      refine ⟨hkt.change hs hp hr ha hn (ht.effect.change p), ?_⟩
      intro hr'
      rcases ht.effect.resetting hr' with hr' | hh
      · exact hr hr'
      · exact hkt.not_handles hs hp ha hn hh
  exact hinv.1

/-- A signal is posted. -/
def posts : Event → Bool
  | .post _ _ => true
  | .alarms => true
  | _ => false

/-- Only `SigAbort` is handled, and of other processes than `p`, which is not dead; no signal is
posted before those of the running process are reset, and no process is started. -/
def spares (p : ProcId) (k : Kernel) (e : Event) : Bool :=
  (k.handles e).all (fun q => q ≠ p ∧
    ((k.procs q).handled = none ∨ (k.procs q).handled = some sigAbort)) &&
    decide ((k.procs p).state ≠ .dead ∧ (k.switching = true → posts e = false) ∧ starts e = false)

theorem keepsSignals_of_spares (h : spares p k e = true) :
  KeepsSignals k e ∧ ¬ Applies k e p s ∧ ¬ Ends k e p
  := by
  unfold spares at h
  rw [Bool.and_eq_true, Option.all_eq_true, decide_eq_true_eq] at h
  obtain ⟨hhandles, hstate, hposts, hstarts⟩ := h
  have hspared : ∀ q, Handles k e q → q ≠ p ∧
      ((k.procs q).handled = none ∨ (k.procs q).handled = some sigAbort) :=
    fun q hq => of_decide_eq_true (hhandles q (handles_eq hq))
  have hp : ∀ s, ¬ Applies k e p s := fun s ha => (hspared p ha.1).1 rfl
  refine ⟨⟨?_, ?_⟩, hp s, ?_⟩
  · intro q s hq hne hs hpending
    rcases (hspared q hq).2 with hnone | habort
    · exact absurd hnone (handled_ne_none hs hpending)
    · exact absurd habort hne
  · rintro q s ⟨-, hpost⟩ ⟨hsw, -⟩
    have hquiet := hposts hsw
    rcases hpost with ⟨pid, signal, rfl, -⟩ | ⟨rfl, -⟩
    · cases hquiet
    · cases hquiet
  · rintro (ha | hr | hs)
    · exact hp _ ha
    · exact hstate hr.2.2.2
    · exact not_spawns hstarts hs

/-- `SigAlarm` is posted to a process that waits. Another one is aborted and one exits, which makes
the first one ready: its signal is still pending. -/
theorem no_signal_lost_woken :
  ∃ k k₁ k', Run.ReachAny Step booted k ∧ (k.procs 126).state = .waiting ∧
    Step k (.post 1 sigAlarm) k₁ ∧ Run.ReachAny Step k₁ k' ∧ (k'.procs 126).state = .ready ∧
      (k'.procs 124).state = .dead ∧ (k'.procs 126).Pending sigAlarm
  := by
  obtain ⟨k, hk, hP⟩ := exists_run
    (P := fun k => (k.procs 126).state = .waiting ∧ (k.procs 126).sigMask = 0 ∧
      k.procTable 1 = .proc 126 ∧ k.switching = false ∧
      (k.next (.post 1 sigAlarm)).any fun k₁ => (k₁.traceWhen (spares 126) [.post 3 sigAbort, .exit,
        .exit, .preempt, .leave, .dispatch, .dispatch]).any fun k' =>
          (k'.procs 126).state = .ready ∧ (k'.procs 124).state = .dead)
    [.preempt, .leave, .dispatch, .dispatch, .exec true, .exec true, .waitpid 2, .preempt, .leave,
      .dispatch, .dispatch] (by decide +kernel)
  obtain ⟨hwaits, hm, ht, hsw, hP⟩ := of_decide_eq_true hP
  obtain ⟨k₁, h₁, hP⟩ := (Option.any_eq_true _ _).mp hP
  obtain ⟨k', h', hP⟩ := (Option.any_eq_true _ _).mp hP
  obtain ⟨hready, hdead⟩ := of_decide_eq_true hP
  have hpost : Posts k (.post 1 sigAlarm) 126 sigAlarm := by
    refine ⟨by rw [hm]; rfl, .inl ⟨1, sigAlarm, rfl, by decide, by decide, ht, by decide⟩⟩
  have hkeeps : KeepsSignals k (.post 1 sigAlarm) :=
    ⟨fun p s hh => absurd hh (not_handles nofun nofun), fun p s _ hr => by simp [hr.1] at hsw⟩
  have hrun := traceWhen_reaches
    (C := fun t e => KeepsSignals t e ∧ ¬ Applies t e 126 sigAlarm ∧ ¬ Ends t e 126)
    (fun _ _ => keepsSignals_of_spares) h'
  exact ⟨k, k₁, k', hk, hwaits, next_step h₁, hrun.mono fun _ _ _ => trivial, hready, hdead,
    no_signal_lost (by decide) hpost hkeeps (next_step h₁) hrun⟩

/-- `SigStop` and `SigAlarm` are posted before the same pass: only `SigStop` is applied, and
both are reset. -/
theorem signal_lost :
  ¬ ∀ (k₀ k k₁ k' : Kernel) (e : Event) (p : ProcId) (s : BitVec 32), Booted k₀ →
    Run.ReachAny Step k₀ k → s ∈ lasting → Posts k e p s → Step k e k₁ →
      Run.Reach Step (fun t e => ¬ Applies t e p s ∧ ¬ Ends t e p) k₁ k' →
        (k'.procs p).Pending s
  := by
  intro hclaim
  obtain ⟨k, hk, hP⟩ := exists_run
    (P := fun k => (k.procs 126).sigMask = 0 ∧ k.procTable 1 = .proc 126 ∧
      (k.next (.post 1 sigAlarm)).any fun k₁ => (k₁.procs 126).handled = some sigStop ∧
        (k₁.next .preempt).any fun k₂ => (k₂.next .leave).any fun k' =>
          ¬ (k'.procs 126).Pending sigAlarm)
    [.preempt, .leave, .dispatch, .dispatch, .post 1 sigStop] (by decide +kernel)
  obtain ⟨hm, ht, hP⟩ := of_decide_eq_true hP
  obtain ⟨k₁, h₁, hP⟩ := (Option.any_eq_true _ _).mp hP
  obtain ⟨hstop, hP⟩ := of_decide_eq_true hP
  obtain ⟨k₂, h₂, hP⟩ := (Option.any_eq_true _ _).mp hP
  obtain ⟨k', h', hP⟩ := (Option.any_eq_true _ _).mp hP
  have hpost : Posts k (.post 1 sigAlarm) 126 sigAlarm := by
    refine ⟨by rw [hm]; rfl, .inl ⟨1, sigAlarm, rfl, by decide, by decide, ht, by decide⟩⟩
  refine of_decide_eq_true hP (hclaim booted k k₁ k' _ 126 sigAlarm booted_booted hk (by decide)
    hpost (next_step h₁) (((Run.Reach.refl k₁).snoc ?_ (next_step h₂)).snoc ?_ (next_step h')))
  · refine ⟨fun ha => ?_, ?_⟩
    · have := hstop.symm.trans ha.2
      revert this
      decide
    · rintro (ha | ⟨he, -⟩ | ⟨tty, he, -⟩)
      · have := hstop.symm.trans ha.2
        revert this
        decide
      · cases he
      · cases he
  · refine ⟨fun ha => absurd ha.1 (not_handles nofun nofun), ?_⟩
    rintro (ha | ⟨he, -⟩ | ⟨tty, he, -⟩)
    · exact absurd ha.1 (not_handles nofun nofun)
    · cases he
    · cases he

end Process
