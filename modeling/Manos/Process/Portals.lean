import Manos.Process.Sleep

/-!
# The portals of the descriptors

Every open descriptor has a portal of its own, and what was passed to `kfree` is gone, as long as
`SigAbort` is not handled of a process that has already freed one of its open descriptors.
-/

namespace Process

open Exec

variable {k k' : Kernel} {p q : ProcId} {e : Event} {r f : List ProcId} {fd n : Nat}

/-! ### The condition and the invariant -/

/-- The descriptors of the process `p`. -/
abbrev Kernel.table (k : Kernel) (p : ProcId) : Nat → Option Nat := (k.procs p).descriptorTable

/-- The portal of the descriptor `fd`, if it is open, was freed: the process closes it, has come
past it in its exit, or has ended. -/
def Proc.Gone (x : Proc) (fd : Nat) : Prop :=
  x.state = .dead ∨
    match x.ctl with
    | .closing n => n = fd
    | .disarming n => n = fd
    | .free i => fd < i
    | .yield => True
    | _ => False

/-- The step frees no portal twice: `SigAbort` is handled of no process with an open descriptor
whose portal was freed, and no process that was aborted with open descriptors goes on. -/
structure KeepsPortals (k : Kernel) (e : Event) : Prop where
  abort : ∀ p fd, Handles k e p → (k.procs p).handled = some sigAbort → k.table p fd ≠ none →
    ¬ (k.procs p).Gone fd
  woken : ∀ p q fd, (k.procs p).state = .dead → (k.procs p).ctl ≠ .yield → k.table p fd ≠ none →
    Wakes k e q → ¬ k.OnQueue q (.nextWaitQ p)
  parent : ∀ p q fd, (k.procs p).state = .dead → (k.procs p).ctl ≠ .yield → k.table p fd ≠ none →
    Handles k e q → (k.procs q).handled = some sigContinue → k.procTable (k.procs q).ppid ≠ .proc p

/-- The portals of the descriptors are distinct, and those that were freed are gone. -/
structure Portals (k : Kernel) : Prop where
  freed : ∀ n ∈ k.freed, n < k.allocated
  opened : ∀ p fd n, k.table p fd = some n → n < k.allocated
  inj : ∀ p q fd fd' n, k.table p fd = some n → k.table q fd' = some n → p = q ∧ fd = fd'
  nodup : k.freed.Nodup
  gone : ∀ p fd n, k.table p fd = some n → n ∈ k.freed → (k.procs p).Gone fd
  unused : ∀ p, ¬ Live k p → ∀ fd, k.table p fd = none

/-! ### The descriptors after a step -/

/-- What a step may do to the descriptors: some are closed, and one may be opened, with a new
portal. -/
inductive Opens (k k' : Kernel) : Prop where
  | none (ha : k'.allocated = k.allocated)
      (ht : ∀ q fd n, k'.table q fd = some n → k.table q fd = some n)
  | one {p : ProcId} {fd₀ m : Nat} (hm : k.allocated ≤ m) (ha : m < k'.allocated)
      (ht : ∀ q fd n, k'.table q fd = some n →
        k.table q fd = some n ∨ (q = p ∧ fd = fd₀ ∧ n = m))
  | group (ha : k.allocated ≤ k'.allocated)
      (ht : ∀ q fd n, k'.table q fd = some n → k.table q fd = some n)

/-- The descriptors after the structure of a process changed. -/
theorem table_update {x : Proc} (hp : k'.procs = Function.update k.procs p x) (q : ProcId) :
  k'.table q = if q = p then x.descriptorTable else k.table q
  := by
  rw [Kernel.table, hp]
  split
  · rename_i hq
    rw [hq, Function.update_self]
  · rename_i hq
    rw [Function.update_of_ne hq]

/-- The descriptors after a process changed, but for its descriptors. -/
theorem table_same {x : Proc} (hp : k'.procs = Function.update k.procs p x)
    (hx : x.descriptorTable = k.table p) (q : ProcId) :
  k'.table q = k.table q
  := by
  rw [table_update hp, hx]
  split
  · rename_i hq
    rw [hq]
  · rfl

theorem Still.table (h : Still k k') (q : ProcId) :
  k'.table q = k.table q
  := by
  obtain ⟨s, c, hq⟩ := h.procs q
  rw [Kernel.table, hq]

/-- A step that leaves the descriptors as they are opens none. -/
theorem opens_same (ha : k'.allocated = k.allocated) (ht : ∀ q, k'.table q = k.table q) :
  Opens k k'
  := by
  refine .none ha ?_
  intro q fd n h
  rw [← ht q]
  exact h

/-- One descriptor of a process is set. -/
theorem table_set {x : Proc} {fd₀ : Nat} {v : Option Nat}
    (hp : k'.procs = Function.update k.procs p x)
    (hx : x.descriptorTable = Function.update (k.table p) fd₀ v)
    (h : k'.table q fd = some n) :
  k.table q fd = some n ∨ (q = p ∧ fd = fd₀ ∧ v = some n)
  := by
  rw [table_update hp] at h
  split at h
  · rename_i hq
    rw [hx] at h
    by_cases hfd : fd = fd₀
    · rw [hfd, Function.update_self] at h
      exact .inr ⟨hq, hfd, h⟩
    · rw [Function.update_of_ne hfd] at h
      rw [hq]
      exact .inl h
  · exact .inl h

/-- A descriptor is opened. -/
theorem table_open {x : Proc} {fd₀ m : Nat} (hp : k'.procs = Function.update k.procs p x)
    (hx : x.descriptorTable = Function.update (k.table p) fd₀ (some m))
    (h : k'.table q fd = some n) :
  k.table q fd = some n ∨ (q = p ∧ fd = fd₀ ∧ n = m)
  := by
  rcases table_set hp hx h with hold | ⟨hq, hfd, hm⟩
  · exact .inl hold
  · exact .inr ⟨hq, hfd, (Option.some.inj hm).symm⟩

/-- A descriptor is closed. -/
theorem table_close {x : Proc} {fd₀ : Nat} (hp : k'.procs = Function.update k.procs p x)
    (hx : x.descriptorTable = Function.update (k.table p) fd₀ none)
    (h : k'.table q fd = some n) :
  k.table q fd = some n
  := by
  rcases table_set hp hx h with hold | ⟨-, -, hnone⟩
  · exact hold
  · cases hnone

/-- A new process has the descriptors of its structure. -/
theorem table_taken (p q : ProcId) (tty : Int) (k : Kernel) :
  ((k.taken p).queued p tty).table q = k.table q
  := by
  have hqueued : ((k.taken p).queued p tty).table q = (k.taken p).table q :=
    table_same (by rfl) (by rfl) q
  have htaken : (k.taken p).table q = k.table q := table_same (by rfl) (by rfl) q
  rw [hqueued, htaken]

/-- A new process may have one descriptor more. -/
theorem table_taken_opened {fd₀ : Nat} {tty : Int}
    (h : (((k.taken p).opened p fd₀).queued p tty).table q fd = some n) :
  k.table q fd = some n ∨ (q = p ∧ fd = fd₀ ∧ n = k.allocated + 1)
  := by
  have hqueued : (((k.taken p).opened p fd₀).queued p tty).table q
      = ((k.taken p).opened p fd₀).table q := table_same (by rfl) (by rfl) q
  have htaken : (k.taken p).table q = k.table q := table_same (by rfl) (by rfl) q
  rw [hqueued] at h
  rw [← htaken]
  exact table_open (by rfl) (by rfl) h

theorem Effect.opens (h : Effect k e k') :
  Opens k k'
  := by
  cases h with
  | exec hr hf h₀ ht =>
      refine .group (Nat.le_succ _) ?_
      intro q fd n h
      rw [table_taken] at h
      exact h
  | @execOpen p _ _ fd₀ hr hf h₀ ht hd =>
      refine @Opens.one k _ p fd₀ (k.allocated + 1) (Nat.le_succ _)
        (Nat.lt_succ_self _) ?_
      intro q fd n h
      exact table_taken_opened h
  | @sleep p millis _ fd₀ hr hd =>
      refine @Opens.one k _ p fd₀ k.allocated (Nat.le_refl _) (Nat.lt_succ_self _) ?_
      intro q fd n h
      have harm : (((k.opened p fd₀).arm p millis).setProc p
          fun q => { q with ctl := .armed fd₀ }).table q = (k.opened p fd₀).table q :=
        table_same (by rfl) (by rfl) q
      rw [harm] at h
      exact table_open (by rfl) (by rfl) h
  | @openFile p _ fd₀ hr hd =>
      refine @Opens.one k _ p fd₀ k.allocated (Nat.le_refl _) (Nat.lt_succ_self _) ?_
      intro q fd n h
      exact table_open (by rfl) (by rfl) h
  | closeFile => exact opens_same rfl (table_same (by rfl) (by rfl))
  | closing => exact .none rfl fun q fd n => table_close (by rfl) (by rfl)
  | disarming => exact .none rfl fun q fd n => table_close (by rfl) (by rfl)
  | exitWake hr hc hw =>
      have hstill := (wakeWaiting_woken hw).still
      refine opens_same hstill.allocated ?_
      intro q
      rw [table_same (by rfl) (by rfl) q]
      exact hstill.table q
  | recycle hr hs hd =>
      refine .none rfl ?_
      intro q fd n h
      rw [table_update (k := k) (by rfl)] at h
      split at h
      · cases h
      · exact h
  | preempt hr hw hh =>
      have hstill := (paused_still _ k).trans (handleSignals_still hh)
      exact opens_same hstill.allocated hstill.table
  | skip hr hs hd hh =>
      have hstill := handleSignals_still hh
      refine opens_same hstill.allocated ?_
      intro q
      rw [table_same (by rfl) (by rfl) q]
      exact hstill.table q
  | @run p save k₁ hr hs hd hh =>
      have hstill := handleSignals_still hh
      refine opens_same hstill.allocated ?_
      intro q
      have hstart : ((k₁.reset p).started p).table q = (k₁.reset p).table q :=
        table_same (by rfl) (by rfl) q
      have hreset : (k₁.reset p).table q = k₁.table q := table_same (by rfl) (by rfl) q
      rw [hstart, hreset]
      exact hstill.table q
  | alarms =>
      refine opens_same rfl ?_
      intro q
      by_cases hq : k.Rings q k.alarms
      · change ((k.rung k.alarms).procs q).descriptorTable = _
        rw [Kernel.rung_of_rings hq]
      · change ((k.rung k.alarms).procs q).descriptorTable = _
        rw [Kernel.rung_of_not hq]
  | waitpid => exact opens_same rfl (table_same (by rfl) (by rfl))
  | armed => exact opens_same rfl (table_same (by rfl) (by rfl))
  | armedNone => exact opens_same rfl (table_same (by rfl) (by rfl))
  | asleep => exact opens_same rfl (table_same (by rfl) (by rfl))
  | mask => exact opens_same rfl (table_same (by rfl) (by rfl))
  | block => exact opens_same rfl (table_same (by rfl) (by rfl))
  | unblock => exact opens_same rfl (table_same (by rfl) (by rfl))
  | exitUnlink => exact opens_same rfl (table_same (by rfl) (by rfl))
  | exitFree => exact opens_same rfl (table_same (by rfl) (by rfl))
  | exitDead => exact opens_same rfl (table_same (by rfl) (by rfl))
  | post => exact opens_same rfl (table_same (by rfl) (by rfl))
  | leave => exact opens_same rfl (table_same (by rfl) (by rfl))
  | _ => exact opens_same rfl fun _ => rfl

/-! ### What a step frees -/

/-- What a step may pass to `kfree`. -/
inductive Frees (k : Kernel) (e : Event) (k' : Kernel) : Prop where
  | none (h : k'.freed = k.freed)
  | one {p : ProcId} {fd n : Nat} (hr : Runs k p) (hd : k.table p fd = some n)
      (hc : (k.procs p).ctl = .user ∨ (k.procs p).ctl = .armed fd ∨ (k.procs p).ctl = .free fd)
      (h : k'.freed = k.freed ++ [n]) (hg : (k'.procs p).Gone fd)
  | all {p : ProcId} (hh : Handles k e p) (hs : (k.procs p).handled = some sigAbort)
      (h : k'.freed = k.freed ++ k.portals p) (hd : (k'.procs p).state = .dead)

theorem Woken.freed {S : WNode → Prop} (h : Woken S k k') :
  k'.freed = k.freed
  := by
  obtain ⟨waits, procs, rfl, -⟩ := h
  rfl

/-- The cases of `processSignals` free all portals of a process that is aborted. -/
theorem Handled.freed (h : Handled k p k') :
  k'.freed = k.freed ∨ ((k.procs p).handled = some sigAbort ∧
    k'.freed = k.freed ++ k.portals p ∧ (k'.procs p).state = .dead)
  := by
  cases h with
  | @abort k₁ hs hw =>
      have hwoken := wakeWaiting_woken hw
      have hportals : k₁.portals p = k.portals p := by
        rw [Kernel.portals, Kernel.portals, ← Kernel.table, hwoken.still.table p]
      refine .inr ⟨hs, ?_, ?_⟩
      · rw [← hwoken.freed, ← hportals]
        rfl
      · rw [Kernel.setProc_self]
  | stop hs hw => exact .inl (wakeWaiting_woken hw).freed
  | continued => exact .inl rfl
  | alarm => exact .inl rfl
  | none => exact .inl rfl

theorem Effect.frees (h : Effect k e k') :
  Frees k e k'
  := by
  cases h with
  | closeFile hr hd =>
      refine .one hr.toRuns hd (.inl hr.ctl) rfl (.inr ?_)
      rw [Kernel.setProc_self]
  | armed hr hc hd =>
      refine .one hr hd (.inr (.inl hc)) rfl (.inr ?_)
      rw [Kernel.setProc_self]
  | @exitFree r i hr hc hi =>
      cases hd : (k.procs r).descriptorTable i with
      | none => exact .none (List.append_nil _)
      | some n =>
          refine .one hr hd (.inr (.inr hc)) rfl (.inr ?_)
          rw [Kernel.setProc_self]
          exact Nat.lt_succ_self i
  | exitWake hr hc hw => exact .none (wakeWaiting_woken hw).freed
  | @preempt r k₁ hr hw hh =>
      have hstill := paused_still r k
      have hfreed : (k.paused r).freed = k.freed := by
        rw [Kernel.paused]
        split
        · rfl
        · rfl
      rcases (handleSignals_handled hh).freed with hf | ⟨hs, hf, hd⟩
      · exact .none (hf.trans hfreed)
      · refine .all (.inl ⟨rfl, hr⟩) ?_ ?_ hd
        · rcases k.paused_cases r with hp | hp
          · rw [hp] at hs
            exact hs
          · rw [hp] at hs
            exact hs
        · refine hf.trans ?_
          rw [hfreed, Kernel.portals, Kernel.portals, ← Kernel.table, hstill.table r]
  | @skip p save k₁ hr hs hd hh hn =>
      rcases (handleSignals_handled hh).freed with hf | ⟨hsig, hf, hdead⟩
      · exact .none hf
      · refine .all (.inr ⟨rfl, hr, ⟨_, hs⟩, hd⟩) hsig hf ?_
        change ((k₁.reset p).procs p).state = .dead
        rw [Kernel.reset, Kernel.setProc_self]
        exact hdead
  | run hr hs hd hh hn =>
      rcases (handleSignals_handled hh).freed with hf | ⟨-, -, hdead⟩
      · exact .none hf
      · cases hn.symm.trans hdead
  | _ => exact .none rfl

/-! ### Processes in the table -/

/-- Processes leave the table when they are recycled. -/
theorem Inv.live_lost (h : Inv k r f) (he : Effect k e k') (hl : Live k p) (hn : ¬ Live k' p) :
  Recycles k e p
  := by
  rw [h.table.live_iff] at hl
  rcases he.free_cases with ⟨tty, rfl⟩ | ⟨q, hr⟩ | ⟨-, hs⟩
  · obtain ⟨q, f', rfl, -, hinv⟩ := h.exec he
    rw [List.mem_cons, not_or] at hl
    exact absurd (hinv.table.live_iff.mpr hl.2) hn
  · obtain ⟨r₁, r₂, -, hinv⟩ := h.recycle hr he
    rw [hinv.table.live_iff, not_not, List.mem_append, List.mem_singleton] at hn
    rw [hn.resolve_left hl]
    exact hr
  · rw [Live, hs.procTable, hs.pid] at hn
    exact absurd (h.table.live_iff.mpr hl) hn

/-- A process that is made comes into the table. -/
theorem Inv.live_spawned (h : Inv k r f) (he : Effect k e k') (hs : Spawns k e p) :
  Live k' p
  := by
  obtain ⟨tty, rfl, hp⟩ := hs
  obtain ⟨q, f', rfl, ⟨-, -, hq⟩, hinv⟩ := h.exec he
  cases QNode.proc.inj (hp.symm.trans hq)
  rw [hinv.table.live_iff]
  intro hf
  have hn := h.places.nodup
  rw [List.append_assoc, List.nodup_append, List.cons_append, List.nodup_cons] at hn
  exact hn.2.1.1 (List.mem_append_left _ hf)

/-- A free process is not in the table. -/
theorem Inv.not_live_spawns (h : Inv k r f) (hs : Spawns k e p) :
  ¬ Live k p
  := by
  obtain ⟨tty, -, hp⟩ := hs
  obtain ⟨f', rfl⟩ := ring_first h.places.freelist hp
  rw [h.table.live_iff, not_not]
  exact List.mem_cons_self

/-- The process that runs is in the table. -/
theorem Inv.live_runs (h : Inv k r f) (hr : k.rp = .proc p) :
  Live k p
  := h.table.live_iff.mpr (h.places.notMem_of_rp hr).2

/-- A recycled process has no descriptors. -/
theorem Effect.recycled_table (h : Effect k e k') (hr : Recycles k e p) :
  ∀ fd, k'.table p fd = none
  := by
  obtain ⟨save, groups, -, rfl⟩ := h.recycles hr
  intro fd
  rw [table_update (k := k) (by rfl), if_pos rfl]

/-- Only a process that runs or is made opens a descriptor. -/
theorem Change.closed {x : Proc} (hx : Change k e k' q x) (hn : ∀ fd, k.table q fd = none)
    (hs : ¬ Spawns k e q) (hr : k.rp ≠ .proc q) :
  ∀ fd, x.descriptorTable fd = none
  := by
  cases hx with
  | same => exact hn
  | spawn hsp => exact absurd hsp hs
  | waitpid => exact hn
  | own hrun => exact absurd hrun.rp hr
  | asleep => exact hn
  | exitWake => exact hn
  | exitDead => exact hn
  | woken => exact hn
  | parent => exact hn
  | post => exact hn
  | alarm => exact hn
  | preempt he hrp => exact absurd hrp hr
  | left => exact hn
  | recycled => exact fun _ => rfl
  | skip hh he hx' =>
      rcases hx'.self_cases with rfl | ⟨-, rfl⟩
      · exact hn
      · exact hn
  | run hh he hx' =>
      rcases hx'.self_cases with rfl | ⟨-, rfl⟩
      · exact hn
      · exact hn

/-! ### One step -/

/-- What is gone stays so while its descriptor is open, though the state changes. -/
theorem gone_state {x : Proc} {s : ProcState} {c : Cause} (h : x.Gone fd)
    (hd : x.state = .dead → x.ctl = .yield) :
  ({ x with state := s, cause := c } : Proc).Gone fd
  := by
  right
  rcases h with hdead | hctl
  · change match x.ctl with
      | .closing n => n = fd
      | .disarming n => n = fd
      | .free i => fd < i
      | .yield => True
      | _ => False
    rw [hd hdead]
    trivial
  · exact hctl

/-- A process in its own code, or at a point where it holds its descriptors, has them all. -/
theorem not_gone {x : Proc} (hd : x.state = .dead → x.ctl = .yield)
    (hc : x.ctl = .user ∨ x.ctl = .armed fd ∨ x.ctl = .free fd) :
  ¬ x.Gone fd
  := by
  rintro (hdead | hctl)
  · rw [hd hdead] at hc
    rcases hc with hc | hc | hc
    · cases hc
    · cases hc
    · cases hc
  · rcases hc with hc | hc | hc
    · rw [hc] at hctl
      exact hctl
    · rw [hc] at hctl
      exact hctl
    · rw [hc] at hctl
      exact Nat.lt_irrefl fd hctl

/-- What is gone stays so in a step of the process itself. -/
theorem Own.gone {d : Nat → Option Nat} {m : BitVec 32} {c : Ctl} (h : Own k q e d m c)
    (hd : (k.procs q).state = .dead → (k.procs q).ctl = .yield) (ht : d fd ≠ none)
    (hg : (k.procs q).Gone fd) :
  ({ k.procs q with descriptorTable := d, sigMask := m, ctl := c } : Proc).Gone fd
  := by
  have huser : (k.procs q).ctl ≠ .user := fun hc => not_gone hd (.inl hc) hg
  have hctl : (k.procs q).ctl ≠ .yield → match (k.procs q).ctl with
      | .closing n => n = fd
      | .disarming n => n = fd
      | .free i => fd < i
      | .yield => True
      | _ => False := by
    intro hc
    exact hg.resolve_left fun hdead => hc (hd hdead)
  cases h with
  | sleep hc => exact absurd hc huser
  | openFile hc => exact absurd hc huser
  | closeFile hc => exact absurd hc huser
  | mask hc => exact absurd hc huser
  | closing hc =>
      rw [hc] at hctl
      rw [hctl nofun, Function.update_self] at ht
      exact absurd rfl ht
  | disarming hc =>
      rw [hc] at hctl
      rw [hctl nofun, Function.update_self] at ht
      exact absurd rfl ht
  | armed hc =>
      rw [hc] at hctl
      exact (hctl nofun).elim
  | armedNone hc =>
      rw [hc] at hctl
      exact (hctl nofun).elim
  | exitUnlink hc =>
      rw [hc] at hctl
      exact (hctl nofun).elim
  | exitFree hc hi =>
      rw [hc] at hctl
      exact .inr (Nat.lt_succ_of_lt (hctl nofun))

/-- Signals change the state and the cause. -/
theorem Signalled.self_form {x : Proc} (hx : Signalled k p p x) :
  ∃ s c, x = { k.procs p with state := s, cause := c }
  := by
  rcases hx.self_cases with rfl | ⟨-, rfl⟩
  · exact ⟨_, _, rfl⟩
  · exact ⟨_, _, rfl⟩

theorem Signalled.paused_form {x : Proc} (hx : Signalled (k.paused p) p p x) :
  ∃ s c, x = { k.procs p with state := s, cause := c }
  := by
  obtain ⟨s, c, rfl⟩ := hx.self_form
  refine ⟨s, c, ?_⟩
  rcases k.paused_cases p with hp | hp
  · rw [hp]
  · rw [hp]

/-- The scheduler handles the signals of processes that are not dead. -/
theorem handles_dispatch (h : Handles k .dispatch p) :
  (k.procs p).state ≠ .dead
  := by
  rcases h with ⟨he, -⟩ | ⟨-, -, -, hd⟩
  · cases he
  · exact hd

/-- What is gone stays so while its descriptor is open. -/
theorem Inv.gone_change {x : Proc} (h : Inv k r f) (hk : KeepsPortals k e)
    (hn : Spawns k e q → k.table q fd = none) (hx : Change k e k' q x) (ht : k.table q fd ≠ none)
    (ht' : x.descriptorTable fd ≠ none) (hg : (k.procs q).Gone fd) :
  x.Gone fd
  := by
  have hrun : Runs k q → (k.procs q).state = .dead → (k.procs q).ctl = .yield :=
    fun hr => (h.states.running q hr.rp hr.switching).1
  have hdead : (∀ hd : (k.procs q).state = .dead, (k.procs q).ctl ≠ .yield → False) →
      (k.procs q).state = .dead → (k.procs q).ctl = .yield := by
    intro hf hd
    by_contra hc
    exact hf hd hc
  cases hx with
  | same => exact hg
  | spawn hs => exact absurd (hn hs) ht
  | waitpid he hr => exact absurd hg (not_gone (hrun hr.toRuns) (.inl hr.ctl))
  | own hr hown => exact hown.gone (hrun hr) ht' hg
  | asleep he hr hc =>
      rcases hg with hd | hctl
      · have := hrun hr hd
        rw [hc] at this
        cases this
      · rw [hc] at hctl
        exact hctl.elim
  | exitWake he hr => exact absurd hg (not_gone (hrun hr.toRuns) (.inl hr.ctl))
  | exitDead => exact .inl rfl
  | woken hw hq hon =>
      exact gone_state (c := (k.procs q).cause) hg
        (hdead fun hd hc => hk.woken q _ fd hd hc ht hw hon)
  | parent hh hq hs hp =>
      exact gone_state hg (hdead fun hd hc => hk.parent q _ fd hd hc ht hh hs hp)
  | post => exact hg
  | alarm => exact hg
  | preempt he hr hw hx' =>
      obtain ⟨s, c, rfl⟩ := hx'.paused_form
      exact gone_state hg (h.states.running q hr hw).1
  | left => exact hg
  | recycled => exact .inl rfl
  | skip hh he hx' =>
      subst he
      obtain ⟨s, c, rfl⟩ := hx'.self_form
      have hstate := gone_state (s := s) (c := c) hg fun hd => absurd hd (handles_dispatch hh)
      exact hstate
  | run hh he hx' =>
      subst he
      obtain ⟨s, c, rfl⟩ := hx'.self_form
      have hstate := gone_state (s := .running) (c := c) hg
        fun hd => absurd hd (handles_dispatch hh)
      exact hstate

/-- Every step that frees no portal twice keeps the invariant. -/
theorem Inv.portals_step (h : Inv k r f) (hP : Portals k) (hk : KeepsPortals k e)
    (he : Effect k e k') :
  Portals k'
  := by
  have hspawn : ∀ q fd, Spawns k e q → k.table q fd = none :=
    fun q fd hs => hP.unused q (h.not_live_spawns hs) fd
  have hgone : ∀ q fd n, k.table q fd = some n → k'.table q fd = some n → (k.procs q).Gone fd →
      (k'.procs q).Gone fd := by
    intro q fd n ht ht' hg
    apply h.gone_change hk (hspawn q fd) (he.change q) _ _ hg
    · rw [ht]
      nofun
    · rw [← Kernel.table, ht']
      nofun
  -- what is freed was open before, and is gone after
  have hfrees : ∃ l, k'.freed = k.freed ++ l ∧ l.Nodup ∧
      ∀ n ∈ l, ∃ q fd, k.table q fd = some n ∧ n ∉ k.freed ∧ (k'.procs q).Gone fd := by
    cases he.frees with
    | none hf => exact ⟨[], by rw [hf, List.append_nil], List.nodup_nil, nofun⟩
    | @one p fd n hr hd hc hf hg =>
        refine ⟨[n], hf, List.nodup_singleton n, ?_⟩
        intro m hm
        obtain rfl := List.mem_singleton.mp hm
        refine ⟨p, fd, hd, ?_, hg⟩
        intro hfreed
        have hdead := (h.states.running p hr.rp hr.switching).1
        exact not_gone hdead hc (hP.gone p fd m hd hfreed)
    | @all p hh hs hf hd =>
        refine ⟨k.portals p, hf, ?_, ?_⟩
        · refine List.Nodup.filterMap ?_ List.nodup_range
          intro fd fd' n hn hn'
          exact (hP.inj p p fd fd' n hn hn').2
        · intro n hn
          obtain ⟨fd, -, ht⟩ := List.mem_filterMap.mp hn
          refine ⟨p, fd, ht, ?_, .inl hd⟩
          intro hfreed
          apply hk.abort p fd hh hs _ (hP.gone p fd n ht hfreed)
          rw [Kernel.table, ht]
          nofun
  have halloc : k.allocated ≤ k'.allocated := by
    cases he.opens with
    | none ha => omega
    | one hm ha => omega
    | group ha => exact ha
  obtain ⟨l, hfreed, hnodup, hl⟩ := hfrees
  have hentry : ∀ q fd n, k'.table q fd = some n → n < k.allocated → k.table q fd = some n := by
    intro q fd n ht hn
    cases he.opens with
    | none ha hopen => exact hopen q fd n ht
    | one hm ha hopen =>
        rcases hopen q fd n ht with ht | ⟨-, -, rfl⟩
        · exact ht
        · omega
    | group ha hopen => exact hopen q fd n ht
  constructor
  · intro n hn
    rw [hfreed, List.mem_append] at hn
    rcases hn with hn | hn
    · exact Nat.lt_of_lt_of_le (hP.freed n hn) halloc
    · obtain ⟨q, fd, ht, -⟩ := hl n hn
      exact Nat.lt_of_lt_of_le (hP.opened q fd n ht) halloc
  · intro q fd n ht
    cases he.opens with
    | none ha hopen => exact Nat.lt_of_lt_of_le (hP.opened q fd n (hopen q fd n ht)) halloc
    | one hm ha hopen =>
        rcases hopen q fd n ht with ht | ⟨-, -, rfl⟩
        · exact Nat.lt_of_lt_of_le (hP.opened q fd n ht) halloc
        · exact ha
    | group ha hopen => exact Nat.lt_of_lt_of_le (hP.opened q fd n (hopen q fd n ht)) halloc
  · intro p q fd fd' n hp hq
    cases he.opens with
    | none ha hopen => exact hP.inj p q fd fd' n (hopen _ _ _ hp) (hopen _ _ _ hq)
    | group ha hopen => exact hP.inj p q fd fd' n (hopen _ _ _ hp) (hopen _ _ _ hq)
    | one hm ha hopen =>
        rcases hopen _ _ _ hp with hp | ⟨rfl, rfl, rfl⟩
        · rcases hopen _ _ _ hq with hq | ⟨-, -, rfl⟩
          · exact hP.inj p q fd fd' n hp hq
          · have := hP.opened p fd n hp
            omega
        · rcases hopen _ _ _ hq with hq | ⟨rfl, rfl, -⟩
          · have := hP.opened q fd' n hq
            omega
          · exact ⟨rfl, rfl⟩
  · rw [hfreed, List.nodup_append]
    refine ⟨hP.nodup, hnodup, ?_⟩
    rintro n hn m hm rfl
    obtain ⟨q, fd, -, hnot, -⟩ := hl n hm
    exact hnot hn
  · intro q fd n ht hn
    have hlt : n < k.allocated := by
      rw [hfreed, List.mem_append] at hn
      rcases hn with hn | hn
      · exact hP.freed n hn
      · obtain ⟨q, fd, ht, -⟩ := hl n hn
        exact hP.opened q fd n ht
    have hbefore := hentry q fd n ht hlt
    rw [hfreed, List.mem_append] at hn
    rcases hn with hn | hn
    · exact hgone q fd n hbefore ht (hP.gone q fd n hbefore hn)
    · obtain ⟨q', fd', ht', -, hg⟩ := hl n hn
      obtain ⟨rfl, rfl⟩ := hP.inj _ _ _ _ n hbefore ht'
      exact hg
  · intro q hn fd
    by_cases hl : Live k q
    · exact he.recycled_table (h.live_lost he hl hn) fd
    · apply (he.change q).closed (hP.unused q hl)
      · exact fun hs => hn (h.live_spawned he hs)
      · exact fun hr => hl (h.live_runs hr)

/-! ### After boot -/

/-- After boot at most one descriptor is open, and nothing was freed. -/
theorem Booted.portals (h : Booted k) :
  Portals k
  := by
  obtain ⟨freelist, memory, tty, p, -, hsched⟩ := h.spawned
  obtain ⟨-, hk⟩ := schedProc_taken hsched
  have hlive : Live k p := by
    rcases hk with rfl | ⟨fd, -, rfl⟩
    · simp [Live, Kernel.queued, Kernel.taken, Kernel.setRunQ, Kernel.setProc]
    · simp [Live, Kernel.queued, Kernel.taken, Kernel.opened, Kernel.setRunQ, Kernel.setProc]
  have hfreed : k.freed = [] := (schedProc_rest hsched).2.2
  have htable : ∃ fd₀, ∀ q fd n, k.table q fd = some n →
      q = p ∧ fd = fd₀ ∧ n = 1 ∧ 1 < k.allocated := by
    rcases hk with rfl | ⟨fd₀, -, rfl⟩
    · refine ⟨0, ?_⟩
      intro q fd n hq
      rw [table_taken] at hq
      cases hq
    · refine ⟨fd₀, ?_⟩
      intro q fd n hq
      rcases table_taken_opened hq with hq | ⟨rfl, rfl, rfl⟩
      · cases hq
      · exact ⟨rfl, rfl, rfl, Nat.lt_succ_self 1⟩
  obtain ⟨fd₀, htable⟩ := htable
  constructor
  · rw [hfreed]
    exact List.forall_mem_nil _
  · intro q fd n hq
    obtain ⟨-, -, rfl, hlt⟩ := htable q fd n hq
    exact hlt
  · intro q q' fd fd' n hq hq'
    obtain ⟨rfl, rfl, -⟩ := htable q fd n hq
    obtain ⟨rfl, rfl, -⟩ := htable q' fd' n hq'
    exact ⟨rfl, rfl⟩
  · rw [hfreed]
    exact List.nodup_nil
  · intro q fd n _ hn
    rw [hfreed] at hn
    cases hn
  · intro q hq fd
    cases hfd : k.table q fd with
    | none => rfl
    | some n =>
        obtain ⟨rfl, -⟩ := htable q fd n hfd
        exact absurd hlive hq

end Process
