import Manos.Process.ExitStates
import Manos.Process.Settle

/-!
# Wait queues and interrupted exits

The wait queues are intact while exits take processes off them load by load and store by store, as
long as nothing is done in between to the entries that an exit has read.
-/

namespace Process

open Exec Links

variable {k k' : Kernel} {e : Event} {p q r : ProcId} {l f : List ProcId}

/-! ### Points of `wakeWaiting` -/

/-- The call `listUnlinkAndInit(&waiting->nextWaitQ)` that the exit is in. -/
def WakePoint.call : WakePoint → Option (ProcId × UnlinkPoint WNode)
  | unlink q _ a => some (q, a)
  | _ => none

/-- The process that the exit is making ready. -/
def WakePoint.held : WakePoint → Option ProcId
  | unlink q _ _ | ready q _ => some q
  | _ => none

/-- The exit of `r` has read an entry of the queue, and has still to use it. -/
def WakePoint.Reads (r : ProcId) : WakePoint → Prop
  | save _ | unlink _ _ _ => True
  | ready _ x => x ≠ .waitQ r
  | _ => False

/-- What an exit of `r` has read, if the queue of `r` holds `l`: the processes of `rest` are those
that it comes to after the current one. -/
def WakePoint.Ok (r : ProcId) (l rest : List ProcId) : WakePoint → Prop
  | first => True
  | save pos => ∃ l₁ q, l = l₁ ++ q :: rest ∧ pos = .nextWaitQ q
  | unlink _ x _ => x = (rest.map .nextWaitQ).headD (.waitQ r)
  | ready _ x => x = (rest.map .nextWaitQ).headD (.waitQ r) ∧ ∃ l₁, l = l₁ ++ rest
  | own a => a.Self (.nextWaitQ r)

/-- How many loads and stores are left when the processes of `rest` are still to be woken. -/
def WakePoint.left (rest : List ProcId) : WakePoint → ℕ
  | first => 8 * maxProc + 7
  | save _ => 8 * rest.length + 14
  | unlink _ _ a => 8 * rest.length + a.left + 7
  | ready _ _ => 8 * rest.length + 7
  | own a => a.left

/-- A process is put at the front of the queue, or the queue is emptied while the exit has read no
entry that it has still to use. -/
theorem WakePoint.Ok.change {b : WakePoint} {l' rest : List ProcId} (h : b.Ok r l rest)
    (hl : l' = l ∨ (l' = [] ∧ ¬ b.Reads r) ∨ ∃ p, l' = p :: l) :
  b.Ok r l' rest
  := by
  rcases hl with rfl | ⟨rfl, hb⟩ | ⟨p, rfl⟩
  · exact h
  · cases b with
    | first => trivial
    | save pos => exact absurd trivial hb
    | unlink q save a => exact h
    | ready q save =>
        have hsave : (rest.map WNode.nextWaitQ).headD (.waitQ r) = .waitQ r :=
          h.1.symm.trans (not_not.mp hb)
        cases rest with
        | nil => exact ⟨h.1, [], rfl⟩
        | cons x rest => cases hsave
    | own a => exact h
  · cases b with
    | first => trivial
    | save pos =>
        obtain ⟨l₁, q, rfl, hpos⟩ := h
        exact ⟨p :: l₁, q, rfl, hpos⟩
    | unlink q save a => exact h
    | ready q save =>
        obtain ⟨hsave, l₁, rfl⟩ := h
        exact ⟨hsave, p :: l₁, rfl⟩
    | own a => exact h

/-! ### What a step does to one process -/

/-- A process whose exit is in `wakeWaiting` stays there, unless it takes a step. -/
theorem unlink_kept {x : Proc} (hx : Change k e k' q x) (hc : (k.procs q).ctl = .unlink) :
  x.ctl = .unlink ∨ Spawns k e q ∨ (e = .exit ∧ Runs k q)
  := by
  cases hx with
  | same => exact .inl hc
  | spawn hs => exact .inr (.inl hs)
  | waitpid => exact .inl hc
  | own hr hown =>
      cases hown with
      | exitUnlink => exact .inr (.inr ⟨rfl, hr⟩)
      | sleep hc' => exact absurd (hc.symm.trans hc') nofun
      | openFile hc' => exact absurd (hc.symm.trans hc') nofun
      | closeFile hc' => exact absurd (hc.symm.trans hc') nofun
      | closing hc' => exact absurd (hc.symm.trans hc') nofun
      | armed hc' => exact absurd (hc.symm.trans hc') nofun
      | armedNone hc' => exact absurd (hc.symm.trans hc') nofun
      | disarming hc' => exact absurd (hc.symm.trans hc') nofun
      | mask hc' => exact absurd (hc.symm.trans hc') nofun
      | exitFree hc' => exact absurd (hc.symm.trans hc') nofun
  | asleep he hr hc' => exact absurd (hc.symm.trans hc') nofun
  | exitWake => exact .inl rfl
  | exitDead he hr hc' => exact absurd (hc.symm.trans hc') nofun
  | woken => exact .inl hc
  | parent => exact .inl hc
  | post => exact .inl hc
  | alarm => exact .inl hc
  | preempt he hr hw hx' =>
      obtain ⟨s, c, rfl⟩ := hx'.paused_form
      exact .inl hc
  | left => exact .inl hc
  | recycled => exact .inl hc
  | skip hh he hx' =>
      obtain ⟨s, c, rfl⟩ := hx'.self_form
      exact .inl hc
  | run hh he hx' =>
      obtain ⟨s, c, rfl⟩ := hx'.self_form
      exact .inl hc

/-- A process dies at the end of its exit, or when it is aborted. -/
theorem Change.dies {x : Proc} (hx : Change k e k' q x) (hd : x.state = .dead)
    (hc : (k.procs q).ctl = .unlink) :
  (k.procs q).state = .dead ∨ (Handles k e q ∧ (k.procs q).handled = some sigAbort)
  := by
  have hself : ∀ (k₁ : Kernel) y, Signalled k₁ q q y → y.state = .dead →
      (k₁.procs q).state = .dead ∨ (k₁.procs q).handled = some sigAbort := by
    intro k₁ y hy hyd
    rcases hy.self_cases with rfl | ⟨-, rfl⟩
    · change (k₁.procs q).after = .dead at hyd
      unfold Proc.after at hyd
      split_ifs at hyd with h₁
      · exact .inr h₁
      · exact .inl hyd
    · cases hyd
  cases hx with
  | same => exact .inl hd
  | spawn => cases hd
  | waitpid => cases hd
  | own => exact .inl hd
  | asleep => cases hd
  | exitWake he hr hs =>
      rcases hs with rfl | ⟨rfl, -⟩
      · exact .inl hd
      · cases hd
  | exitDead he hr hc' => exact absurd (hc.symm.trans hc') nofun
  | woken => cases hd
  | parent => cases hd
  | post => exact .inl hd
  | alarm => exact .inl hd
  | preempt he hr hw hx' =>
      have hh : Handles k e q := .inl ⟨he, hr⟩
      have hs := hself _ _ hx' hd
      rw [(k.paused_same q).1] at hs
      rcases k.paused_cases q with hp | hp
      · rw [hp] at hs
        exact hs.imp_right fun hs => ⟨hh, hs⟩
      · rw [hp] at hs
        exact .inr ⟨hh, hs.resolve_left nofun⟩
  | left => exact .inl hd
  | recycled hr => exact .inl hr.2.2.2
  | skip hh he hx' => exact (hself k _ hx' hd).imp_right fun hs => ⟨hh, hs⟩
  | run => cases hd

/-- Structures that were used stay so. -/
theorem Inv.used_kept (h : Inv k l f) (he : Effect k e k') (hp : k.Used p) :
  k'.Used p
  := by
  by_cases hs : ∃ q, Spawns k e q
  · obtain ⟨q, hs⟩ := hs
    rw [h.used_spawned he hs]
    exact .inr hp
  · rw [Kernel.Used, (he.change p).pid fun hsp => hs ⟨p, hsp⟩]
    exact hp

namespace Exits

variable {m m' : Exits} {V : Links WNode} {on rest : ProcId → List ProcId}

/-- The calls of `listUnlinkAndInit` that exits are in, in the loops of their `wakeWaiting`. -/
def calls (m : Exits) (r : ProcId) : Option (ProcId × UnlinkPoint WNode) :=
  if (m.kernel.procs r).ctl = .unlink then (m.point r).call else none

/-- The exit of `r` is making the process `q` ready. -/
def Holds (m : Exits) (r q : ProcId) : Prop :=
  (m.kernel.procs r).ctl = .unlink ∧ (m.point r).held = some q

/-- The exit of `r` has read an entry of its queue, and has still to use it. -/
def Reads (m : Exits) (r : ProcId) : Prop :=
  (m.kernel.procs r).ctl = .unlink ∧ (m.point r).Reads r

/-- The step keeps the wait queues: it does so in the kernel; no process is put on the queue of one
whose exit has read that the head of the queue comes before the entry that it takes off; no process
is aborted or stopped whose exit has read an entry that it has still to use; and no signal makes a
process ready or wait again while an exit is making it ready. -/
structure KeepsQueues (m : Exits) (e : Event) : Prop where
  kernel : Process.KeepsQueues m.kernel e
  joined : ∀ pid p q a, e = .waitpid pid → m.kernel.procTable pid = .proc p →
    m.calls p = some (q, a) → a.loaded ≠ some (.waitQ p)
  continued : ∀ p q a, Handles m.kernel e p → (m.kernel.procs p).handled = some sigContinue →
    m.calls p = some (q, a) → a.loaded ≠ some (.waitQ p)
  interrupted : ∀ p, Handles m.kernel e p → (m.kernel.procs p).handled = some sigAbort ∨
    (m.kernel.procs p).handled = some sigStop → ¬ m.Reads p
  held : ∀ r q, m.Holds r q → (Handles m.kernel e q → (m.kernel.procs q).handled = none) ∧
    ∀ p, Handles m.kernel e p → (m.kernel.procs p).handled = some sigContinue →
      m.kernel.procTable (m.kernel.procs p).ppid ≠ .proc q

/-- The wait queues hold the processes `on` when the exits that have begun to take a process off
have made the rest of their stores, and the exits come to the processes `rest` after the current
ones. -/
structure Queued (m : Exits) (V : Links WNode) (on rest : ProcId → List ProcId) : Prop where
  removals : Removals .waitQ .nextWaitQ m.links V m.kernel.Used on rest m.calls
  waiting : ∀ p q, p ∈ on q → (m.kernel.procs p).state = .waiting
  live : ∀ p q, p ∈ on q → Live m.kernel q
  held : ∀ r q, m.Holds r q → (m.kernel.procs q).state = .waiting
  single : ∀ r r' q, m.Holds r q → m.Holds r' q → r = r'
  off : ∀ r q save, (m.kernel.procs r).ctl = .unlink → m.point r = .ready q save → ∀ j, q ∉ on j
  points : ∀ r, (m.kernel.procs r).ctl = .unlink → (m.point r).Ok r (on r) (rest r)
  reading : ∀ r, m.Reads r → Live m.kernel r ∧ (m.kernel.procs r).state ≠ .dead

theorem calls_eq_some {a : UnlinkPoint WNode} :
  m.calls r = some (q, a) ↔
    (m.kernel.procs r).ctl = .unlink ∧ ∃ save, m.point r = .unlink q save a
  := by
  unfold calls
  constructor
  · intro h
    split_ifs at h with hc
    refine ⟨hc, ?_⟩
    cases hp : m.point r with
    | unlink q' save b =>
        rw [hp] at h
        cases h
        exact ⟨save, rfl⟩
    | _ =>
        rw [hp] at h
        cases h
  · rintro ⟨hc, save, hp⟩
    rw [if_pos hc, hp]
    rfl

theorem holds_of_calls {a : UnlinkPoint WNode} (h : m.calls r = some (q, a)) :
  m.Holds r q ∧ m.Reads r
  := by
  obtain ⟨hc, save, hp⟩ := calls_eq_some.mp h
  refine ⟨⟨hc, ?_⟩, hc, ?_⟩
  · rw [hp]
    rfl
  · rw [hp]
    trivial

theorem Holds.cases (h : m.Holds r q) :
  (∃ a, m.calls r = some (q, a)) ∨
    (m.kernel.procs r).ctl = .unlink ∧ ∃ save, m.point r = .ready q save
  := by
  obtain ⟨hc, hp⟩ := h
  cases hpt : m.point r with
  | unlink q' save a =>
      rw [hpt] at hp
      cases hp
      exact .inl ⟨a, calls_eq_some.mpr ⟨hc, save, hpt⟩⟩
  | ready q' save =>
      rw [hpt] at hp
      cases hp
      exact .inr ⟨hc, save, rfl⟩
  | _ =>
      rw [hpt] at hp
      cases hp

/-- No call takes a process off a queue whose process has read no entry. -/
theorem calls_none (hr : ¬ m.Reads r) :
  m.calls r = none
  := by
  rw [Option.eq_none_iff_forall_ne_some]
  rintro ⟨q, a⟩ hc
  exact hr (holds_of_calls hc).2

/-- The other steps change no point of an exit. -/
theorem ctl_other (he : Process.Effect m.kernel e k) (hx : e = .exit → ∀ r, Runs m.kernel r →
      (m.kernel.procs r).ctl ≠ .user ∧ (m.kernel.procs r).ctl ≠ .unlink) (r : ProcId) :
  ((k.procs r).ctl = .unlink → (m.kernel.procs r).ctl = .unlink) ∧
    ((m.kernel.procs r).ctl = .unlink → (k.procs r).ctl = .unlink ∨ Spawns m.kernel e r)
  := by
  constructor
  · intro hc
    rcases unlink_change (he.change r) hc with hc | ⟨rfl, hr⟩
    · exact hc
    · exact absurd hr.ctl (hx rfl r hr.toRuns).1
  · intro hc
    rcases unlink_kept (he.change r) hc with hc | hs | ⟨rfl, hr⟩
    · exact .inl hc
    · exact .inr hs
    · exact absurd hc (hx rfl r hr).2

namespace Queued

variable (h : Queued m V on rest)
include h

/-- The queues of the kernel in which the stores have been made. -/
theorem settled :
  Waiting (m.kernel.settled V) on
  := ⟨h.removals.rings, h.waiting, h.live⟩

/-- A process on a queue is made ready by no exit, unless by that of the process whose queue it
is. -/
theorem holds_on (hr : m.Holds r q) (hq : q ∈ on p) :
  p = r ∧ ∃ a, m.calls r = some (q, a)
  := by
  rcases hr.cases with ⟨a, ha⟩ | ⟨hc, save, hp⟩
  · refine ⟨?_, a, ha⟩
    by_cases hb : a.Begun
    · exact absurd hq ((h.removals.off r q a ha hb).2 p)
    · obtain ⟨l₁, hfits⟩ := h.removals.fits r q a ha
      have hmem : q ∈ on r := by
        cases a with
        | prev => exact hfits ▸ List.mem_append_right _ List.mem_cons_self
        | next n => exact hfits.1 ▸ List.mem_append_right _ List.mem_cons_self
        | setPrev n n' => exact hfits.1 ▸ List.mem_append_right _ List.mem_cons_self
        | _ => exact absurd trivial hb
      exact h.removals.rings.one q p r hq hmem
  · exact absurd hq (h.off r q save hc hp p)

/-- No exit stores at the node of a process that does not wait. -/
theorem free_node (hq : (m.kernel.procs q).state ≠ .waiting) :
  Free .nextWaitQ m.calls (.nextWaitQ q)
  := by
  apply h.removals.free_of_off waitNames
  · intro j hj
    exact hq (h.waiting q j hj)
  · intro r a hc
    exact absurd (h.held r q (holds_of_calls hc).1) hq

/-- No exit but that of `p` stores at the head of the queue of `p`. -/
theorem free_head (hp : ∀ q a, m.calls p = some (q, a) → a.loaded ≠ some (.waitQ p)) :
  Free .nextWaitQ m.calls (.waitQ p)
  := by
  apply h.removals.free_head waitNames
  intro q n hc
  exact hp q _ hc rfl

/-- A queue whose process has read no entry. -/
theorem resting (hp : m.kernel.Used p) (hr : ¬ m.Reads p) :
  Resting m.calls V p
  := by
  have hring := h.removals.rings.ring p hp
  refine ⟨?_, on p, hring⟩
  intro l hl y hy
  rw [← hring.unique hl] at hy
  refine h.removals.free_of_mem waitNames ?_ hy
  rw [calls_none hr]
  nofun

/-- A process may be put at the front of a queue. -/
theorem enters (hp : m.kernel.Used p) (hq : Free .nextWaitQ m.calls (.nextWaitQ q))
    (hc : ∀ q a, m.calls p = some (q, a) → a.loaded ≠ some (.waitQ p)) :
  Enters m.calls m.kernel p q
  := by
  have hhead := h.free_head hc
  refine ⟨hq, hhead.next, ?_⟩
  have hfirst : m.kernel.waits.next (.waitQ p) = ((on p).map WNode.nextWaitQ).headD (.waitQ p) := by
    rw [← (h.removals.completed.sameAt hhead).1]
    exact (h.removals.rings.ring p hp).neighbours_head.1
  rw [hfirst]
  apply callPrev_eq_none
  intro j i a hj hb
  exact h.removals.ne_held waitNames headD_mem hj hb

/-- Nodes that are linked to themselves are so when the stores have been made. -/
theorem alone {x : WNode} (hx : m.links.Alone x) :
  V.Alone x
  := hx.frame (h.removals.completed.sameAt (h.removals.free_of_alone waitNames hx))

theorem keepsQueues (hk : m.KeepsQueues e) :
  Process.KeepsQueues (m.kernel.settled V) e
  where
  waitpid := hk.kernel.waitpid
  handled p hh hne := h.alone (hk.kernel.handled p hh hne)
  parent p q hh hs hp := h.alone (hk.kernel.parent p q hh hs hp)
  recycle p hr := h.alone (hk.kernel.recycle p hr)

/-- What the step touches is settled. -/
theorem clear (hi : Inv m.kernel l f) (hk : m.KeepsQueues e)
    (hx : e = .exit → ∀ r, Runs m.kernel r →
      (m.kernel.procs r).ctl ≠ .user ∧ (m.kernel.procs r).ctl ≠ .unlink) :
  Clear m.calls V m.kernel e
  := by
  have hrun : ∀ r, Runs m.kernel r → (m.kernel.procs r).state ≠ .waiting := fun r hr =>
    (hi.states.running r hr.rp hr.switching).2.2 hr.pendsv
  have hfree : ∀ p, ¬ m.Reads p → (m.kernel.procs p).state ≠ .waiting →
      Free .nextWaitQ m.calls (.waitQ p) ∧ Free .nextWaitQ m.calls (.nextWaitQ p) := by
    intro p hp hst
    refine ⟨h.free_head ?_, h.free_node hst⟩
    rw [calls_none hp]
    nofun
  constructor
  · exact hx
  · intro p hs
    have hl := hi.not_live_spawns hs
    refine hfree p (fun hr => hl (h.reading p hr).1) ?_
    rw [hi.table.live_iff, not_not] at hl
    rcases hi.states.free p hl with hst | hst
    · rw [hst]
      nofun
    · rw [hst]
      nofun
  · intro pid p r he hp hr
    have hl := hk.kernel.waitpid pid p he hp
    exact h.enters (hi.used_of_live hl) (h.free_node (hrun r hr.toRuns))
      fun q a hc => hk.joined pid p q a he hp hc
  · intro p hh
    have hp := hi.used_of_notMem (hi.places.handles_notMem hh)
    constructor
    · intro hs
      exact h.resting hp (hk.interrupted p hh hs)
    · intro q hs hq
      exact h.enters hp (h.removals.free_of_alone waitNames (hk.kernel.parent p q hh hs hq))
        fun q a hc => hk.continued p q a hh hs hc
  · intro p hr
    have hd := hr.2.2.2
    refine hfree p (fun hp => (h.reading p hp).2 hd) ?_
    rw [hd]
    nofun

/-- What happens while no exit takes a step. -/
theorem other (hi : Inv m.kernel l f) (hk : m.KeepsQueues e) (he : Process.Effect m.kernel e k)
    (hx : e = .exit → ∀ r, Runs m.kernel r →
      (m.kernel.procs r).ctl ≠ .user ∧ (m.kernel.procs r).ctl ≠ .unlink) :
  ∃ V' on', Queued { m with kernel := k } V' on' rest
  := by
  obtain ⟨V', he', hV'⟩ := he.settled h.removals.completed (h.clear hi hk hx)
  obtain ⟨on', hq, hw⟩ := hi.settled.waiting_step h.settled (h.keepsQueues hk) he'
  refine ⟨V', on', ?_⟩
  have hctl := ctl_other he hx
  have hwakes : ∀ p, Wakes (m.kernel.settled V) e p → ¬ m.Reads p := by
    rintro p (⟨rfl, hr⟩ | ⟨hh, hs⟩)
    · exact absurd hr.ctl (hx rfl p ⟨hr.rp, hr.pendsv, hr.switching⟩).1
    · exact hk.interrupted p hh hs
  have hreads : ∀ r, Reads { m with kernel := k } r → m.Reads r := fun r hr =>
    ⟨(hctl r).1 hr.1, hr.2⟩
  have hholds : ∀ r q, Holds { m with kernel := k } r q → m.Holds r q := fun r q hr =>
    ⟨(hctl r).1 hr.1, hr.2⟩
  have hcalls : calls { m with kernel := k } = m.calls := by
    funext r
    by_cases hc : (k.procs r).ctl = .unlink
    · rw [calls, calls, if_pos hc, if_pos ((hctl r).1 hc)]
    · rw [calls, if_neg hc]
      by_cases hc' : (m.kernel.procs r).ctl = .unlink
      · have hs := ((hctl r).2 hc').resolve_left hc
        exact (calls_none fun hr => hi.not_live_spawns hs (h.reading r hr).1).symm
      · rw [calls, if_neg hc']
  -- a process that an exit makes ready is put on no queue
  have hput : ∀ r q j, m.Holds r q → q ∈ on' j → q ∈ on j := by
    intro r q j hr hj
    have hst := h.held r q hr
    rcases hq.shape j with hs | ⟨hs, -⟩ | ⟨p, hs, hp⟩
    · rwa [hs] at hj
    · rw [hs] at hj
      cases hj
    · rw [hs, List.mem_cons] at hj
      rcases hj with rfl | hj
      · exfalso
        rcases hp with ⟨pid, rfl, hex, -⟩ | ⟨hh, hs, hp⟩
        · exact (hi.states.running q hex.rp hex.switching).2.2 hex.pendsv hst
        · exact (hk.held r q hr).2 j hh hs hp
      · exact hj
  constructor
  · rw [hcalls]
    refine h.removals.other hw.queues hV' ?_ ?_ ?_
    · intro p hp
      exact hi.used_kept he hp
    · intro j i a hc
      rcases hq.shape j with hs | ⟨-, hwk⟩ | ⟨p, hs, hp⟩
      · exact .inl hs
      · exact absurd (holds_of_calls hc).2 (hwakes j hwk)
      · refine .inr ⟨p, hs, ?_⟩
        rcases hp with ⟨pid, rfl, -, hp⟩ | ⟨hh, hs, -⟩
        · exact hk.joined pid j i a rfl hp hc
        · exact hk.continued j i a hh hs hc
    · intro j i a hc hb n hn
      exact (h.removals.off j i a hc hb).2 n (hput j i n (holds_of_calls hc).1 hn)
  · exact hw.waiting
  · exact hw.live
  · intro r q hr
    have hr := hholds r q hr
    have hst := h.held r q hr
    have hsettled := hi.settled (V := V)
    refine (hsettled.waiting_change hst (hk.held r q hr).1 ?_ (he'.change q)).1
    intro p hwk hon
    obtain ⟨rfl, a, hc⟩ := h.holds_on hr (hsettled.mem_of_onQueue h.settled hwk hon)
    exact hwakes p hwk (holds_of_calls hc).2
  · exact fun r r' q hr hr' => h.single r r' q (hholds r q hr) (hholds r' q hr')
  · intro r q save hc hp j hj
    have hc := (hctl r).1 hc
    have hr : m.Holds r q := ⟨hc, by rw [hp]; rfl⟩
    exact h.off r q save hc hp j (hput r q j hr hj)
  · intro r hc
    refine (h.points r ((hctl r).1 hc)).change ?_
    rcases hq.shape r with hs | ⟨hs, hwk⟩ | ⟨p, hs, -⟩
    · exact .inl hs
    · exact .inr (.inl ⟨hs, fun hr => hwakes r hwk ⟨(hctl r).1 hc, hr⟩⟩)
    · exact .inr (.inr ⟨p, hs⟩)
  · intro r hr
    have hr := hreads r hr
    obtain ⟨hl, hd⟩ := h.reading r hr
    constructor
    · by_contra hn
      exact hd (hi.live_lost he hl hn).2.2.2
    · intro hd'
      rcases (he.change r).dies hd' hr.1 with hd' | ⟨hh, hs⟩
      · exact hd hd'
      · exact hk.interrupted r hh (.inl hs) hr

end Queued

end Exits

end Process
