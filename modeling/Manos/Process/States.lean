import Manos.Process.Change
import Manos.Process.Table
import Manos.Process.Trace

/-!
# The states of the processes

The invariant of the kernel, and the steps that change the state of a process that is dead
or stopped.
-/

namespace Process

open Exec

variable {k k' : Kernel} {p q : ProcId} {e : Event} {r r' f f' : List ProcId}

/-! ### The invariant -/

/-- The states of the free structures and of the running process. -/
structure States (k : Kernel) (f : List ProcId) : Prop where
  free : ∀ p ∈ f, (k.procs p).state = .dead ∨ (k.procs p).state = .ready
  running : ∀ p, k.rp = .proc p → k.switching = false →
    ((k.procs p).state = .dead → (k.procs p).ctl = .yield) ∧ (k.procs p).state ≠ .stopped ∧
      (k.pendsv = false → (k.procs p).state ≠ .waiting)

/-- The invariant of the kernel: every structure is in one place, the process table is as it
should be, and so are the states of the free structures and of the running process. -/
structure Inv (k : Kernel) (r f : List ProcId) : Prop where
  places : Places k r f
  table : Table k f
  states : States k f

/-- The process in the table at the pid of a parent is not free. -/
theorem Table.parent_notMem (h : Table k f) (hp : k.procTable (k.procs p).ppid = .proc q) :
  q ∉ f
  := by
  rcases h.parent p with h₀ | ⟨s, hs, hps⟩
  · rw [h₀, h.slot_zero] at hp
    cases hp
  · rw [hps] at hp
    exact (h.notMem hs hp).2

/-- Signals are handled of a process that is not free. -/
theorem Places.handles_notMem (h : Places k r f) (hh : Handles k e p) :
  p ∉ f
  := by
  rcases hh with ⟨-, hr⟩ | ⟨-, -, ⟨save, hs⟩, -⟩
  · exact (h.notMem_of_rp hr).2
  · obtain ⟨-, hpos | ⟨q, hq, hpos, -⟩⟩ := h.scan _ _ hs
    · cases hpos
    · cases hpos
      intro hf
      exact h.notMem_runQ hf hq

/-- The state of a free structure that stays free. -/
theorem Inv.free_change {x : Proc} (h : Inv k r f) (hq : q ∈ f) (hs : ¬ Spawns k e q)
    (hx : Change k e k' q x) :
  x.state = .dead ∨ x.state = .ready
  := by
  have hfree := h.states.free q hq
  have hrp : ∀ r, Runs k r → r ≠ q := by
    rintro r hr rfl
    exact (h.places.notMem_of_rp hr.rp).2 hq
  cases hx with
  | same => exact hfree
  | spawn hsp => exact absurd hsp hs
  | waitpid he hr => exact absurd rfl (hrp q hr.toRuns)
  | own hr => exact hfree
  | asleep he hr => exact absurd rfl (hrp q hr)
  | exitWake he hr => exact absurd rfl (hrp q hr.toRuns)
  | exitDead => exact .inl rfl
  | woken => exact .inr rfl
  | parent hh hqp hsig hp => exact absurd hq (h.table.parent_notMem hp)
  | post => exact hfree
  | alarm => exact hfree
  | preempt he hr => exact absurd hq (h.places.notMem_of_rp hr).2
  | left => exact hfree
  | recycled => exact .inl rfl
  | skip hh => exact absurd hq (h.places.handles_notMem hh)
  | run hh => exact absurd hq (h.places.handles_notMem hh)

/-- The process that runs after a step ran before it, or was dispatched in it. -/
theorem Effect.runs (h : Effect k e k') (hp : k'.rp = .proc p) (hs : k'.switching = false) :
  (k.rp = .proc p ∧ k.switching = false ∧ (∀ q, ¬ Handles k e q) ∧
      (k'.pendsv = false → k.pendsv = false)) ∨
    (k'.procs p).state = .running
  := by
  cases h with
  | preempt => cases hs
  | preemptNone => cases hs
  | leave => cases hp
  | leaveNone => cases hp
  | start hr => exact absurd hp (by rw [hr]; nofun)
  | idle hr => exact absurd hp (by rw [hr]; nofun)
  | stop hr => exact absurd hp (by rw [hr]; nofun)
  | recycle hr => exact absurd (hr.symm.trans hp) nofun
  | skip hr hsc hd hh =>
      have hrp : _ = Rp.proc p := (handleSignals_still hh).rp.symm.trans hp
      exact absurd (hr.symm.trans hrp) nofun
  | run hr hsc hd hh =>
      right
      cases hp
      rw [Kernel.started_self]
  | exitWake hr hc hw =>
      left
      have hstill := (wakeWaiting_woken hw).still
      exact ⟨hstill.rp.symm.trans hp, hstill.switching.symm.trans hs,
        fun q => not_handles nofun nofun, hstill.pendsv.symm.trans⟩
  | waitpid => exact .inl ⟨hp, hs, fun q => not_handles nofun nofun, nofun⟩
  | asleep => exact .inl ⟨hp, hs, fun q => not_handles nofun nofun, nofun⟩
  | exitYield => exact .inl ⟨hp, hs, fun q => not_handles nofun nofun, nofun⟩
  | _ => exact .inl ⟨hp, hs, fun q => not_handles nofun nofun, id⟩

/-- The state of the process that runs. -/
theorem Inv.running_change {x : Proc} (h : Inv k r f) (hp : k.rp = .proc p)
    (hs : k.switching = false) (hh : ∀ q, ¬ Handles k e q)
    (hy : k'.pendsv = false → k.pendsv = false) (hx : Change k e k' p x) :
  (x.state = .dead → x.ctl = .yield) ∧ x.state ≠ .stopped ∧
    (k'.pendsv = false → x.state ≠ .waiting)
  := by
  have hrun := h.states.running p hp hs
  have hctl : (k.procs p).ctl ≠ .yield → (k.procs p).state ≠ .dead :=
    fun hc hd => hc (hrun.1 hd)
  have hsame : ((k.procs p).state = .dead → (k.procs p).ctl = .yield) ∧
      (k.procs p).state ≠ .stopped ∧ (k'.pendsv = false → (k.procs p).state ≠ .waiting) :=
    ⟨hrun.1, hrun.2.1, fun hpend => hrun.2.2 (hy hpend)⟩
  cases hx with
  | same => exact hsame
  | spawn => exact ⟨nofun, nofun, nofun⟩
  | waitpid he hr h₀ h₁ hslot hpend =>
      refine ⟨nofun, nofun, ?_⟩
      rw [hpend]
      nofun
  | own hr hown =>
      have hne : (k.procs p).ctl ≠ .yield := by
        intro hc
        cases hown <;> simp_all
      exact ⟨fun hd => absurd hd (hctl hne), hsame.2⟩
  | asleep he hr hc hpend =>
      refine ⟨nofun, nofun, ?_⟩
      rw [hpend]
      nofun
  | exitWake he hr hst =>
      have hne : (k.procs p).ctl ≠ .yield := by
        rw [hr.ctl]
        nofun
      rcases hst with rfl | ⟨rfl, -⟩
      · exact ⟨fun hd => absurd hd (hctl hne), hsame.2⟩
      · exact ⟨nofun, nofun, nofun⟩
  | exitDead => exact ⟨fun _ => rfl, nofun, nofun⟩
  | woken => exact ⟨nofun, nofun, nofun⟩
  | parent hh' => exact absurd hh' (hh _)
  | post => exact hsame
  | alarm => exact hsame
  | preempt he hr => exact absurd (.inl ⟨he, hr⟩) (hh p)
  | left => exact hsame
  | recycled hr =>
      have hbad := hr.2.1
      rw [hp] at hbad
      cases hbad
  | skip hh' => exact absurd hh' (hh _)
  | run hh' => exact absurd hh' (hh _)

/-! ### Steps keep the invariant -/

/-- A step starts a process, recycles one, or leaves the free list as it is. -/
theorem Effect.free_cases (h : Effect k e k') :
  (∃ tty, e = .exec tty) ∨ (∃ p, Recycles k e p) ∨
    (k'.freelist = k.freelist ∧ SameIds k k')
  := by
  by_cases hx : ∃ tty, e = .exec tty
  · exact .inl hx
  · by_cases hr : ∃ p, Recycles k e p
    · exact .inr (.inl hr)
    · right
      right
      apply h.sameIds
      · intro tty he
        exact hx ⟨tty, he⟩
      · intro p save he hs hd
        cases h with
        | start hrp hsc => exact absurd (hsc.symm.trans hs) nofun
        | idle hrp hsc => exact absurd (hsc.symm.trans hs) nofun
        | stop hrp => exact hr ⟨p, rfl, hrp, ⟨save, hs⟩, hd⟩
        | recycle hrp => exact hr ⟨p, rfl, hrp, ⟨save, hs⟩, hd⟩
        | skip hrp => exact hr ⟨p, rfl, hrp, ⟨save, hs⟩, hd⟩
        | run hrp => exact hr ⟨p, rfl, hrp, ⟨save, hs⟩, hd⟩
        | _ => cases he

theorem Inv.running_step (h : Inv k r f) (he : Effect k e k') :
  ∀ p, k'.rp = .proc p → k'.switching = false →
    ((k'.procs p).state = .dead → (k'.procs p).ctl = .yield) ∧
      (k'.procs p).state ≠ .stopped ∧ (k'.pendsv = false → (k'.procs p).state ≠ .waiting)
  := by
  intro p hp hs
  rcases he.runs hp hs with ⟨hrp, hsw, hh, hy⟩ | hrun
  · exact h.running_change hrp hsw hh hy (he.change p)
  · rw [hrun]
    exact ⟨nofun, nofun, nofun⟩

theorem Inv.exec {tty : Bool} (h : Inv k r f) (he : Effect k (.exec tty) k') :
  ∃ p f', f = p :: f' ∧ Spawns k (.exec tty) p ∧ Inv k' (r ++ [p]) f'
  := by
  have hinv : ∃ p x, Executes k x ∧ k.freelist.next .head = .proc p ∧
      (∀ f', Places ((k.taken p).queued p (-1)) (r ++ [p]) f' → Places k' (r ++ [p]) f') ∧
      SameIds (k.taken p) k' := by
    cases he with
    | @exec p x _ hr hf h₀ ht =>
        exact ⟨p, x, hr, hf, fun _ hp => hp, sameIds_update rfl rfl rfl ⟨rfl, rfl⟩⟩
    | @execOpen p x _ fd hr hf h₀ ht hd =>
        have hopen : SameIds (k.taken p) ((k.taken p).opened p fd) :=
          sameIds_update rfl rfl rfl ⟨rfl, rfl⟩
        exact ⟨p, x, hr, hf, fun _ hp => hp.congr rfl rfl rfl rfl,
          hopen.trans (sameIds_update rfl rfl rfl ⟨rfl, rfl⟩)⟩
  obtain ⟨p, x, hr, hf, hplaces, hids⟩ := hinv
  obtain ⟨f', rfl, hq⟩ := h.places.spawn (h.places.scan_none hr.rp) (-1) hf
  have hpf : p ∉ f' := by
    intro hmem
    have hn := h.places.nodup
    rw [List.append_assoc, List.nodup_append, List.cons_append, List.nodup_cons] at hn
    exact hn.2.1.1 (List.mem_append_left _ hmem)
  refine ⟨p, f', rfl, ⟨tty, rfl, hf⟩, hplaces f' hq, ?_, ?_, h.running_step he⟩
  · refine (h.table.taken hpf ?_ ?_).congr hids
    · rw [hr.rp]
      nofun
    · intro s hs
      exact (h.places.notMem_of_rp hs).2
  · intro q hq
    refine h.free_change (List.mem_cons_of_mem _ hq) ?_ (he.change q)
    rintro ⟨tty', -, hfirst⟩
    rw [hf] at hfirst
    cases hfirst
    exact hpf hq

theorem Inv.recycle (h : Inv k r f) (hr : Recycles k e p) (he : Effect k e k') :
  ∃ r₁ r₂, r = r₁ ++ p :: r₂ ∧ Inv k' (r₁ ++ r₂) (f ++ [p])
  := by
  have hrun := h.running_step he
  have hchange := he.change
  have hbad := hr.2.1
  obtain ⟨save, groups, hs, rfl⟩ := he.recycles hr
  obtain ⟨r₁, r₂, rfl, hsave⟩ := h.places.split hs
  refine ⟨r₁, r₂, rfl, (h.places.recycle hbad).advance hbad hsave, ?_, ?_, hrun⟩
  · have htable : Table (k.setRunQ (Links.unlink .null (.proc p))) f :=
      h.table.congr ⟨rfl, rfl, fun _ => rfl, fun _ => rfl⟩
    exact (htable.recycled groups h.places.notMem_split.2).congr
      ⟨rfl, rfl, fun _ => rfl, fun _ => rfl⟩
  · intro q hq
    rw [List.mem_append, List.mem_singleton] at hq
    rcases hq with hq | rfl
    · refine h.free_change hq ?_ (hchange q)
      rintro ⟨tty, he, -⟩
      cases hr.1.symm.trans he
    · left
      have hself : ((k.setRunQ (Links.unlink .null (.proc q))).recycled q groups).procs q
          = _ := Function.update_self q _ _
      exact congrArg Proc.state hself

/-- Every step keeps the invariant. -/
theorem Inv.step (h : Inv k r f) (he : Effect k e k') :
  ∃ r' f', Inv k' r' f'
  := by
  rcases he.free_cases with ⟨tty, rfl⟩ | ⟨p, hp⟩ | ⟨hfree, hids⟩
  · obtain ⟨p, f', -, -, hinv⟩ := h.exec he
    exact ⟨_, _, hinv⟩
  · obtain ⟨r₁, r₂, -, hinv⟩ := h.recycle hp he
    exact ⟨_, _, hinv⟩
  · obtain ⟨r', f', hp', -⟩ := h.places.step he
    obtain rfl := h.places.free_eq hp' hfree
    refine ⟨r', f', hp', h.table.congr hids, ?_, h.running_step he⟩
    intro q hq
    refine h.free_change hq ?_ (he.change q)
    rintro ⟨tty, rfl, hf⟩
    obtain ⟨p, f'', hf'', -, hinv⟩ := h.exec he
    have := h.places.free_eq hinv.places hfree
    rw [this] at hf''
    exact absurd hf''.symm (List.cons_ne_self p f')

/-! ### Boot -/

/-- The first process is made. -/
theorem Inv.booted {freelist : Links QNode} {memory : Int → Slot} {tty : Bool}
    (hring : freelist.Ring .head ((List.finRange maxProc).reverse.map .proc))
    (h : schedProc tty (listsSet freelist memory) = .done p k) :
  ∃ r f, Inv k r f
  := by
  obtain ⟨f', hf, hplaces⟩ := (places_listsSet hring).schedProc rfl h
  have htable := table_listsSet freelist memory
  have hpf : p ∉ f' := by
    have hn := List.nodup_reverse.mpr (List.nodup_finRange maxProc)
    rw [hf, List.nodup_cons] at hn
    exact hn.1
  rw [hf] at htable
  have htaken : Table ((listsSet freelist memory).taken p) f' :=
    htable.taken hpf nofun nofun
  refine ⟨_, f', hplaces, htaken.congr (schedProc_sameIds h), ?_, ?_⟩
  · intro q hq
    left
    have hqp : q ≠ p := by
      rintro rfl
      exact hpf hq
    rw [schedProc_procs_of_ne h hqp]
    rfl
  · intro q hq
    rw [(schedProc_rest h).1] at hq
    cases hq

/-- The invariant holds in every state of every run. -/
theorem inv_reachable {k₀ : Kernel} (h₀ : Booted k₀) (h : Run.ReachAny Step k₀ k) :
  ∃ r f, Inv k r f
  := by
  refine h.invariant (P := fun k => ∃ r f, Inv k r f) ?_ ?_
  · obtain ⟨freelist, memory, tty, p, hring, hsched⟩ := h₀.spawned
    exact Inv.booted hring hsched
  · rintro t e t' ⟨r, f, hinv⟩ - hs
    exact hinv.step hs.effect

/-! ### States that signals and waking leave alone -/

/-- The step disturbs no process in the state `s`: of a process in this state only such
signals are handled that satisfy `signals`, `SigContinue` is not handled of a process whose
parent is in this state, and `wakeWaiting` comes to no other process in this state. -/
structure Undisturbed (s : ProcState) (signals : Option (BitVec 32) → Prop) (k : Kernel)
    (e : Event) : Prop where
  own : ∀ p, Handles k e p → (k.procs p).state = s → signals (k.procs p).handled
  parent : ∀ p q, Handles k e p → q ≠ p → (k.procs p).handled = some sigContinue →
    k.procTable (k.procs p).ppid = .proc q → (k.procs q).state ≠ s
  woken : ∀ p q, Wakes k e p → q ≠ p → k.OnQueue p (.nextWaitQ q) → (k.procs q).state ≠ s

/-- The step disturbs no dead process. -/
def KeepsDead : Kernel → Event → Prop :=
  Undisturbed .dead fun s => s = none ∨ s = some sigAbort

/-- The step disturbs no stopped process. -/
def KeepsStopped : Kernel → Event → Prop :=
  Undisturbed .stopped fun s => s ≠ some sigAlarm

/-- The signals of a process that was not running, as `scheduleProc` finds it. -/
theorem Kernel.paused_eq (h : (k.procs p).state ≠ .running) :
  k.paused p = k
  := if_neg h

/-- A dead process stays so in a step that disturbs no dead process. -/
theorem Inv.dead_change {x : Proc} (h : Inv k r f) (hk : KeepsDead k e)
    (hd : (k.procs p).state = .dead) (hs : ¬ Spawns k e p) (hx : Change k e k' p x) :
  x.state = .dead
  := by
  have hctl : ∀ c, Runs k p → (k.procs p).ctl = c → c = .yield := by
    intro c hr hc
    rw [← hc]
    exact (h.states.running p hr.rp hr.switching).1 hd
  cases hx with
  | same => exact hd
  | spawn hsp => exact absurd hsp hs
  | waitpid he hr => exact absurd (hctl _ hr.toRuns hr.ctl) nofun
  | own => exact hd
  | asleep he hr hc => exact absurd (hctl _ hr hc) nofun
  | exitWake he hr => exact absurd (hctl _ hr.toRuns hr.ctl) nofun
  | exitDead => rfl
  | woken hw hq hon => exact absurd hd (hk.woken _ _ hw hq hon)
  | parent hh hq hsig hp => exact absurd hd (hk.parent _ _ hh hq hsig hp)
  | post => exact hd
  | alarm => exact hd
  | preempt he hr hw hx =>
      rw [Kernel.paused_eq (by rw [hd]; nofun)] at hx
      have hsig := hk.own p (.inl ⟨he, hr⟩) hd
      cases hx with
      | same hq => exact hd
      | self =>
          unfold Proc.after
          rcases hsig with hsig | hsig
          · rw [if_neg (by rw [hsig]; nofun), if_neg (by rw [hsig]; nofun), if_pos hsig, hd]
          · rw [if_pos hsig]
      | selfParent _ hc =>
          rw [hc] at hsig
          exact absurd hsig (by decide)
      | woken hq => exact absurd rfl hq
      | parent hq => exact absurd rfl hq
  | left => exact hd
  | recycled => rfl
  | skip hh he =>
      rcases hh with ⟨rfl, -⟩ | ⟨-, -, -, hnd⟩
      · cases he
      · exact absurd hd hnd
  | run hh he =>
      rcases hh with ⟨rfl, -⟩ | ⟨-, -, -, hnd⟩
      · cases he
      · exact absurd hd hnd

/-- The signals of a stopped process, when neither `SigAbort` nor `SigContinue` is handled. -/
theorem Signalled.stopped {x : Proc} (hx : Signalled k p p x)
    (hst : (k.procs p).state = .stopped) (hl : (k.procs p).handled ≠ some sigAlarm)
    (ha : (k.procs p).handled ≠ some sigAbort) (hc : (k.procs p).handled ≠ some sigContinue) :
  x.state = .stopped
  := by
  cases hx with
  | same hq => exact hst
  | self =>
      rw [Proc.after, if_neg ha]
      by_cases hs : (k.procs p).handled = some sigStop
      · rw [if_pos hs]
      · rw [if_neg hs]
        have hn : (k.procs p).handled = none := by
          unfold Proc.handled at *
          split_ifs at *
          all_goals simp_all
        rw [if_pos hn, hst]
  | selfParent _ hcont => exact absurd hcont hc
  | woken hq => exact absurd rfl hq
  | parent hq => exact absurd rfl hq

/-- A stopped process stays so in a step that disturbs no stopped process and in which neither
`SigAbort` nor `SigContinue` is handled of it. -/
theorem Inv.stopped_change {x : Proc} (h : Inv k r f) (hk : KeepsStopped k e)
    (hst : (k.procs p).state = .stopped)
    (hs : Handles k e p → (k.procs p).handled ≠ some sigAbort ∧
      (k.procs p).handled ≠ some sigContinue) (hx : Change k e k' p x) :
  x.state = .stopped
  := by
  have hrun : Runs k p → False :=
    fun hr => (h.states.running p hr.rp hr.switching).2.1 hst
  cases hx with
  | same => exact hst
  | spawn hsp =>
      obtain ⟨tty, -, hf⟩ := hsp
      obtain ⟨f', rfl⟩ := ring_first h.places.freelist hf
      have hfree := h.states.free p List.mem_cons_self
      rw [hst] at hfree
      exact absurd hfree (by decide)
  | waitpid he hr => exact absurd hr.toRuns hrun
  | own => exact hst
  | asleep he hr hc => exact absurd hr hrun
  | exitWake he hr => exact absurd hr.toRuns hrun
  | exitDead he hr => exact absurd hr hrun
  | woken hw hq hon => exact absurd hst (hk.woken _ _ hw hq hon)
  | parent hh hq hsig hp => exact absurd hst (hk.parent _ _ hh hq hsig hp)
  | post => exact hst
  | alarm => exact hst
  | preempt he hr hw hx =>
      rw [Kernel.paused_eq (by rw [hst]; nofun)] at hx
      have hh : Handles k e p := .inl ⟨he, hr⟩
      exact hx.stopped hst (hk.own p hh hst) (hs hh).1 (hs hh).2
  | left => exact hst
  | recycled hrec =>
      have hdead := hrec.2.2.2
      rw [hst] at hdead
      cases hdead
  | skip hh he hx => exact hx.stopped hst (hk.own p hh hst) (hs hh).1 (hs hh).2
  | run hh he hx hready =>
      have := hx.stopped hst (hk.own p hh hst) (hs hh).1 (hs hh).2
      rw [hready] at this
      cases this

end Process
