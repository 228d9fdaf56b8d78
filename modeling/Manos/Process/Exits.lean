import Manos.Lib.Unlink
import Manos.Process.Portals

/-!
# Exits that are interrupted

A process runs `__manos_exit` in its own code, where it may be preempted between any two
instructions: also in the loop of `wakeWaiting` and in `listUnlinkAndInit`.  Here these run load by
load and store by store, and everything else happens in between as before.  What the scheduler does
is not interrupted by another process, and neither is a call that is made through `svc`.
-/

namespace Process

open Exec Links

variable {k k' : Kernel} {p q r : ProcId} {e : Event}

/-! ### The state -/

/-- Where a process is in the `wakeWaiting` of its exit, with its variables `waiting` and `save`,
and in the `listUnlinkAndInit` after it. -/
inductive WakePoint where
  /-- the first entry of the queue is read -/
  | first
  /-- `save` is read, from the entry `pos` -/
  | save (pos : WNode)
  /-- in `listUnlinkAndInit(&waiting->nextWaitQ)` -/
  | unlink (waiting : ProcId) (save : WNode) (a : UnlinkPoint WNode)
  /-- `waiting->state = ProcReady` -/
  | ready (waiting : ProcId) (save : WNode)
  /-- in `listUnlinkAndInit(&p->nextWaitQ)` -/
  | own (a : UnlinkPoint WNode)

/-- The kernel, and where the processes are in their exits whose point is `Ctl.unlink`: from the
start of `wakeWaiting` to the end of `listUnlinkAndInit`. -/
structure Exits where
  kernel : Kernel
  point : ProcId → WakePoint

namespace Exits

variable {m m' : Exits}

/-- Code of the kernel. -/
def onKernel (x : K Unit) : Exec Exits Unit :=
  Exec.onPart kernel (fun k m => { m with kernel := k }) x

/-- Go on at another point of `wakeWaiting`. -/
def goto (p : ProcId) (a : WakePoint) : Exec Exits Unit :=
  Exec.modify fun m => { m with point := Function.update m.point p a }

/-- The next load or store of the process `r` in its `wakeWaiting`, or in the `listUnlinkAndInit`
after it. -/
def wakeStep (r : ProcId) : Exec Exits Unit := do
  let m ← Exec.get
  let K := m.kernel.waits
  match m.point r with
  | .first =>
    if K.next (.waitQ r) = .waitQ r then goto r (.own .prev)
    else goto r (.save (K.next (.waitQ r)))
  | .save pos =>
    match pos with
    | .nextWaitQ q => goto r (.unlink q (K.next pos) .prev)
    | .waitQ _ => Exec.fault (.wild "waiting")
    | .null => Exec.fault (.wild "waiting")
  | .unlink q save a => do
    onKernel (Exec.modify (Kernel.setWaits fun _ => (unlinkStep (.nextWaitQ q) a K).2))
    match (unlinkStep (.nextWaitQ q) a K).1 with
    | some b => goto r (.unlink q save b)
    | none => goto r (.ready q save)
  | .ready q save => do
    onKernel (setState q .ready)
    goto r (if save = .waitQ r then .own .prev else .save save)
  | .own a => do
    onKernel (Exec.modify (Kernel.setWaits fun _ => (unlinkStep (.nextWaitQ r) a K).2))
    match (unlinkStep (.nextWaitQ r) a K).1 with
    | some b => goto r (.own b)
    | none => onKernel (setCtl r (.free 0))

/-- The next step of `__manos_exit`, run by the process `r`. -/
def exit (r : ProcId) : Exec Exits Unit := do
  let m ← Exec.get
  match (m.kernel.procs r).ctl with
  | .user => do
    goto r .first
    onKernel (setCtl r .unlink)
  | .unlink => wakeStep r
  | _ => onKernel (__manos_exit r)

/-- The steps: an exit goes on, or something else happens. -/
inductive Step (m : Exits) : Event → Exits → Prop where
  | exit {r : ProcId} {m' : Exits} (hr : Runs m.kernel r) (h : exit r m = .done () m') :
      Step m .exit m'
  | other {e : Event} {k : Kernel} (he : e ≠ .exit) (h : Process.Step m.kernel e k) :
      Step m e { m with kernel := k }

/-! ### What a step does -/

/-- The process `r` runs, between the start of the `wakeWaiting` of its exit and the end of the
`listUnlinkAndInit` after it. -/
structure Turns (m : Exits) (r : ProcId) : Prop where
  runs : Runs m.kernel r
  ctl : (m.kernel.procs r).ctl = .unlink

/-- The links of the wait queues. -/
abbrev links (m : Exits) : Links WNode := m.kernel.waits

/-- The process `r` goes on at another point of `wakeWaiting`. -/
def goes (r : ProcId) (a : WakePoint) (m : Exits) : Exits :=
  { m with point := Function.update m.point r a }

/-- The links of the wait queues are changed. -/
def withLinks (K : Links WNode) (m : Exits) : Exits :=
  { m with kernel := m.kernel.setWaits fun _ => K }

/-- The structure of a process is changed. -/
def sets (q : ProcId) (f : Proc → Proc) (m : Exits) : Exits :=
  { m with kernel := m.kernel.setProc q f }

@[simp]
theorem goes_goes (a b : WakePoint) :
  (m.goes r a).goes r b = m.goes r b
  := by
  unfold goes
  dsimp only
  rw [Function.update_idem]

@[simp]
theorem withLinks_goes (K : Links WNode) (a : WakePoint) :
  (m.goes r a).withLinks K = (m.withLinks K).goes r a
  := rfl

@[simp]
theorem sets_goes (f : Proc → Proc) (a : WakePoint) :
  (m.goes r a).sets q f = (m.sets q f).goes r a
  := rfl

@[simp]
theorem withLinks_withLinks (K K' : Links WNode) :
  (m.withLinks K).withLinks K' = m.withLinks K'
  := rfl

@[simp]
theorem links_goes (a : WakePoint) :
  (m.goes r a).links = m.links
  := rfl

@[simp]
theorem point_goes (a : WakePoint) :
  (m.goes r a).point r = a
  := Function.update_self _ _ _

/-- What a step may lead to. -/
inductive Effect (m : Exits) : Event → Exits → Prop where
  | other {e : Event} {k : Kernel} (h : Process.Effect m.kernel e k)
      (hx : e = .exit → ∀ r, Runs m.kernel r →
        (m.kernel.procs r).ctl ≠ .user ∧ (m.kernel.procs r).ctl ≠ .unlink) :
      Effect m e { m with kernel := k }
  | begin {r : ProcId} (hr : Executes m.kernel r) :
      Effect m .exit ((m.sets r fun x => { x with ctl := .unlink }).goes r .first)
  | empty {r : ProcId} (hr : m.Turns r) (hp : m.point r = .first)
      (hn : m.links.next (.waitQ r) = .waitQ r) : Effect m .exit (m.goes r (.own .prev))
  | first {r : ProcId} (hr : m.Turns r) (hp : m.point r = .first)
      (hn : m.links.next (.waitQ r) ≠ .waitQ r) :
      Effect m .exit (m.goes r (.save (m.links.next (.waitQ r))))
  | save {r q : ProcId} (hr : m.Turns r) (hp : m.point r = .save (.nextWaitQ q)) :
      Effect m .exit (m.goes r (.unlink q (m.links.next (.nextWaitQ q)) .prev))
  | unlink {r q : ProcId} {save : WNode} {a b : UnlinkPoint WNode} {K : Links WNode}
      (hr : m.Turns r) (hp : m.point r = .unlink q save a)
      (hs : unlinkStep (.nextWaitQ q) a m.links = (some b, K)) :
      Effect m .exit ((m.withLinks K).goes r (.unlink q save b))
  | unlinked {r q : ProcId} {save : WNode} {a : UnlinkPoint WNode} {K : Links WNode}
      (hr : m.Turns r) (hp : m.point r = .unlink q save a)
      (hs : unlinkStep (.nextWaitQ q) a m.links = (none, K)) :
      Effect m .exit ((m.withLinks K).goes r (.ready q save))
  | ready {r q : ProcId} {save : WNode} (hr : m.Turns r) (hp : m.point r = .ready q save) :
      Effect m .exit ((m.sets q fun x => { x with state := .ready }).goes r
        (if save = .waitQ r then .own .prev else .save save))
  | own {r : ProcId} {a b : UnlinkPoint WNode} {K : Links WNode} (hr : m.Turns r)
      (hp : m.point r = .own a) (hs : unlinkStep (.nextWaitQ r) a m.links = (some b, K)) :
      Effect m .exit ((m.withLinks K).goes r (.own b))
  | left {r : ProcId} {a : UnlinkPoint WNode} {K : Links WNode} (hr : m.Turns r)
      (hp : m.point r = .own a) (hs : unlinkStep (.nextWaitQ r) a m.links = (none, K)) :
      Effect m .exit ((m.withLinks K).sets r fun x => { x with ctl := .free 0 })

theorem onKernel_eq_done {x : K Unit} (h : onKernel x m = .done () m') :
  ∃ k, x m.kernel = .done () k ∧ m' = { m with kernel := k }
  := by
  rw [onKernel, Exec.onPart] at h
  cases hx : x m.kernel with
  | done a k =>
      rw [hx] at h
      cases h
      exact ⟨k, rfl, rfl⟩
  | stop f k =>
      rw [hx] at h
      cases h

theorem wakeStep_effect (hr : m.Turns r) (h : wakeStep r m = .done () m') :
  Effect m .exit m'
  := by
  rw [wakeStep, bind_done (get_apply m)] at h
  cases hp : m.point r with
  | first =>
      rw [hp] at h
      dsimp only at h
      split_ifs at h with hn
      · cases h
        exact .empty hr hp hn
      · cases h
        exact .first hr hp hn
  | save pos =>
      rw [hp] at h
      cases pos with
      | nextWaitQ q =>
          cases h
          exact .save hr hp
      | waitQ q => cases h
      | null => cases h
  | unlink q save a =>
      rw [hp] at h
      obtain ⟨b, K, hs⟩ : ∃ b K, unlinkStep (.nextWaitQ q) a m.links = (b, K) := ⟨_, _, rfl⟩
      dsimp only at h
      rw [hs] at h
      cases b with
      | some b =>
          cases h
          exact .unlink hr hp hs
      | none =>
          cases h
          exact .unlinked hr hp hs
  | ready q save =>
      rw [hp] at h
      cases h
      exact .ready hr hp
  | own a =>
      rw [hp] at h
      obtain ⟨b, K, hs⟩ : ∃ b K, unlinkStep (.nextWaitQ r) a m.links = (b, K) := ⟨_, _, rfl⟩
      dsimp only at h
      rw [hs] at h
      cases b with
      | some b =>
          cases h
          exact .own hr hp hs
      | none =>
          cases h
          exact .left hr hp hs

/-- After `listUnlinkAndInit` an exit goes on as in the kernel. -/
theorem exit_kernel (hu : (m.kernel.procs r).ctl ≠ .user) (hl : (m.kernel.procs r).ctl ≠ .unlink) :
  exit r m = onKernel (__manos_exit r) m
  := by
  rw [exit, bind_done (get_apply m)]
  cases hc : (m.kernel.procs r).ctl with
  | user => exact absurd hc hu
  | unlink => exact absurd hc hl
  | _ => rfl

theorem exit_effect (hr : Runs m.kernel r) (h : exit r m = .done () m') :
  Effect m .exit m'
  := by
  by_cases hu : (m.kernel.procs r).ctl = .user
  · rw [exit, bind_done (get_apply m), hu] at h
    cases h
    exact .begin ⟨hr, hu⟩
  by_cases hl : (m.kernel.procs r).ctl = .unlink
  · rw [exit, bind_done (get_apply m), hl] at h
    exact wakeStep_effect ⟨hr, hl⟩ h
  rw [exit_kernel hu hl] at h
  obtain ⟨k, hk, rfl⟩ := onKernel_eq_done h
  refine .other (effect_exit hr hk) ?_
  intro _ r' hr'
  cases hr.rp.symm.trans hr'.rp
  exact ⟨hu, hl⟩

/-- Every step is one of the changes. -/
theorem Step.effect (h : Step m e m') :
  Effect m e m'
  := by
  cases h with
  | exit hr h => exact exit_effect hr h
  | other he h => exact .other h.effect fun hx => absurd hx he

/-! ### The invariant of the kernel -/

/-- The exit of the running process makes the process `q` ready in the step. -/
def Readies (m : Exits) (e : Event) (q : ProcId) : Prop :=
  e = .exit ∧ ∃ r save, m.Turns r ∧ m.point r = .ready q save

/-- In the wake-ups and the unlinking of an exit only the point of its process, the links and the
state of a process change. -/
theorem Effect.kernel (h : Effect m e m') :
  (Process.Effect m.kernel e m'.kernel ∧ ∀ p, Wakes m.kernel e p → Handles m.kernel e p ∧
      ((m.kernel.procs p).handled = some sigAbort ∨ (m.kernel.procs p).handled = some sigStop)) ∨
    (∃ r K c, Runs m.kernel r ∧
      ((m.kernel.procs r).ctl = .user ∨ (m.kernel.procs r).ctl = .unlink) ∧
        m'.kernel = (m.kernel.setProc r fun q => { q with ctl := c }).setWaits fun _ => K) ∨
    ∃ q, m.Readies e q ∧ m'.kernel = m.kernel.setProc q fun x => { x with state := .ready }
  := by
  have hsame : ∀ r K, m.Turns r → m.kernel.setWaits (fun _ => K) =
      (m.kernel.setProc r fun q => { q with ctl := .unlink }).setWaits fun _ => K := by
    intro r K hr
    rw [Kernel.setProc_ctl hr.ctl]
  cases h with
  | other h hx =>
      refine .inl ⟨h, ?_⟩
      rintro p (⟨he, hr⟩ | hh)
      · exact absurd hr.ctl (hx he p hr.toRuns).1
      · exact hh
  | begin hr => exact .inr (.inl ⟨_, m.links, _, hr.toRuns, .inl hr.ctl, rfl⟩)
  | empty hr => exact .inr (.inl ⟨_, _, _, hr.runs, .inr hr.ctl, hsame _ m.links hr⟩)
  | first hr => exact .inr (.inl ⟨_, _, _, hr.runs, .inr hr.ctl, hsame _ m.links hr⟩)
  | save hr => exact .inr (.inl ⟨_, _, _, hr.runs, .inr hr.ctl, hsame _ m.links hr⟩)
  | unlink hr => exact .inr (.inl ⟨_, _, _, hr.runs, .inr hr.ctl, hsame _ _ hr⟩)
  | unlinked hr => exact .inr (.inl ⟨_, _, _, hr.runs, .inr hr.ctl, hsame _ _ hr⟩)
  | ready hr hp => exact .inr (.inr ⟨_, ⟨rfl, _, _, hr, hp⟩, rfl⟩)
  | own hr => exact .inr (.inl ⟨_, _, _, hr.runs, .inr hr.ctl, hsame _ _ hr⟩)
  | left hr => exact .inr (.inl ⟨_, _, _, hr.runs, .inr hr.ctl, rfl⟩)

end Exits

/-- A process that is not dead comes to another point of its code, or a process becomes ready. -/
theorem Inv.set {l f : List ProcId} {g : Proc → Proc} {K : Links WNode} (h : Inv k l f)
    (hids : ∀ x, (g x).pid = x.pid ∧ (g x).ppid = x.ppid)
    (hstate : (g (k.procs q)).state = (k.procs q).state ∨ (g (k.procs q)).state = .ready)
    (hctl : (g (k.procs q)).ctl = (k.procs q).ctl ∨ (k.procs q).ctl ≠ .yield) :
  Inv ((k.setProc q g).setWaits fun _ => K) l f
  := by
  have hprocs : ∀ p, (((k.setProc q g).setWaits fun _ => K).procs p).state = (k.procs p).state ∨
      (((k.setProc q g).setWaits fun _ => K).procs p).state = .ready := by
    intro p
    rw [Kernel.setWaits_procs]
    by_cases hp : p = q
    · rw [hp, Kernel.setProc_self]
      exact hstate
    · left
      rw [Kernel.setProc_of_ne hp]
  have hsameIds : SameIds k ((k.setProc q g).setWaits fun _ => K) := by
    refine ⟨rfl, rfl, ?_, ?_⟩
    · exact Kernel.setProc_field Proc.pid (hids _).1
    · exact Kernel.setProc_field Proc.ppid (hids _).2
  refine ⟨h.places.congr rfl rfl rfl rfl, h.table.congr hsameIds, ?_, ?_⟩
  · intro p hp
    rcases hprocs p with hs | hs
    · rw [hs]
      exact h.states.free p hp
    · exact .inr hs
  · intro p hrp hsw
    have hrun := h.states.running p hrp hsw
    rcases hprocs p with hs | hs
    · rw [hs]
      refine ⟨?_, hrun.2⟩
      intro hd
      have hy := hrun.1 hd
      rw [Kernel.setWaits_procs]
      by_cases hp : p = q
      · subst hp
        rw [Kernel.setProc_self, hctl.resolve_right (fun hne => hne hy)]
        exact hy
      · rw [Kernel.setProc_of_ne hp]
        exact hy
    · rw [hs]
      exact ⟨nofun, nofun, nofun⟩

namespace Exits

variable {m m' : Exits}

/-- The kernel satisfies its invariant. -/
def Ok (m : Exits) : Prop := ∃ l f, Inv m.kernel l f

theorem Ok.step (h : m.Ok) (he : Effect m e m') :
  m'.Ok
  := by
  obtain ⟨l, f, h⟩ := h
  rcases he.kernel with ⟨he, -⟩ | ⟨r, K, c, hr, hc, hk⟩ | ⟨q, -, hk⟩
  · exact h.step he
  · refine ⟨l, f, ?_⟩
    rw [hk]
    refine h.set (fun x => ⟨rfl, rfl⟩) (.inl rfl) (.inr ?_)
    rcases hc with hc | hc
    · rw [hc]
      nofun
    · rw [hc]
      nofun
  · refine ⟨l, f, ?_⟩
    rw [hk]
    exact h.set (q := q) (g := fun x => { x with state := .ready }) (K := m.links)
      (fun x => ⟨rfl, rfl⟩) (.inr rfl) (.inl rfl)

/-- After boot, wherever the points of the processes are. -/
def Booted (m : Exits) : Prop := Process.Booted m.kernel

theorem ok_reachable {m₀ : Exits} (h₀ : m₀.Booted) (h : Run.ReachAny Step m₀ m) :
  m.Ok
  := by
  refine h.invariant (P := Ok) (inv_reachable h₀ (Run.Reach.refl m₀.kernel)) ?_
  intro t e t' hok _ hs
  exact hok.step hs.effect

/-! ### The steps of an exit happen -/

theorem Turns.step (hr : m.Turns r) (h : wakeStep r m = .done () m') :
  Step m .exit m'
  := by
  refine .exit hr.runs ?_
  rw [exit, bind_done (get_apply m), hr.ctl]
  exact h

/-- The process goes on with the same kernel, but for the links. -/
theorem Turns.next {K : Links WNode} {a : WakePoint} (hr : m.Turns r) :
  ((m.withLinks K).goes r a).Turns r
  := ⟨⟨hr.runs.rp, hr.runs.pendsv, hr.runs.switching⟩, hr.ctl⟩

theorem step_unlink {save : WNode} {a b : UnlinkPoint WNode} {K : Links WNode} (hr : m.Turns r)
    (hp : m.point r = .unlink q save a) (hs : unlinkStep (.nextWaitQ q) a m.links = (some b, K)) :
  Step m .exit ((m.withLinks K).goes r (.unlink q save b))
  := by
  apply hr.step
  rw [wakeStep, bind_done (get_apply m), hp]
  dsimp only
  rw [hs]
  rfl

theorem step_unlinked {save : WNode} {a : UnlinkPoint WNode} {K : Links WNode} (hr : m.Turns r)
    (hp : m.point r = .unlink q save a) (hs : unlinkStep (.nextWaitQ q) a m.links = (none, K)) :
  Step m .exit ((m.withLinks K).goes r (.ready q save))
  := by
  apply hr.step
  rw [wakeStep, bind_done (get_apply m), hp]
  dsimp only
  rw [hs]
  rfl

theorem step_own {a b : UnlinkPoint WNode} {K : Links WNode} (hr : m.Turns r)
    (hp : m.point r = .own a) (hs : unlinkStep (.nextWaitQ r) a m.links = (some b, K)) :
  Step m .exit ((m.withLinks K).goes r (.own b))
  := by
  apply hr.step
  rw [wakeStep, bind_done (get_apply m), hp]
  dsimp only
  rw [hs]
  rfl

theorem step_left {a : UnlinkPoint WNode} {K : Links WNode} (hr : m.Turns r)
    (hp : m.point r = .own a) (hs : unlinkStep (.nextWaitQ r) a m.links = (none, K)) :
  Step m .exit ((m.withLinks K).sets r fun x => { x with ctl := .free 0 })
  := by
  apply hr.step
  rw [wakeStep, bind_done (get_apply m), hp]
  dsimp only
  rw [hs]
  rfl

theorem step_ready {save : WNode} (hr : m.Turns r) (hp : m.point r = .ready q save) :
  Step m .exit ((m.sets q fun x => { x with state := .ready }).goes r
    (if save = .waitQ r then .own .prev else .save save))
  := by
  apply hr.step
  rw [wakeStep, bind_done (get_apply m), hp]
  rfl

theorem step_empty (hr : m.Turns r) (hp : m.point r = .first)
    (hn : m.links.next (.waitQ r) = .waitQ r) :
  Step m .exit (m.goes r (.own .prev))
  := by
  apply hr.step
  rw [wakeStep, bind_done (get_apply m), hp]
  change (if m.links.next _ = _ then _ else _ : Exec Exits Unit) m = _
  rw [if_pos hn]
  rfl

theorem step_first (hr : m.Turns r) (hp : m.point r = .first)
    (hn : m.links.next (.waitQ r) ≠ .waitQ r) :
  Step m .exit (m.goes r (.save (m.links.next (.waitQ r))))
  := by
  apply hr.step
  rw [wakeStep, bind_done (get_apply m), hp]
  change (if m.links.next _ = _ then _ else _ : Exec Exits Unit) m = _
  rw [if_neg hn]
  rfl

theorem step_save (hr : m.Turns r) (hp : m.point r = .save (.nextWaitQ q)) :
  Step m .exit (m.goes r (.unlink q (m.links.next (.nextWaitQ q)) .prev))
  := by
  apply hr.step
  rw [wakeStep, bind_done (get_apply m), hp]
  rfl

/-! ### Exits that are not interrupted -/

/-- No exit is in `wakeWaiting`. -/
def AtRest (m : Exits) : Prop :=
  ∀ r, (m.kernel.procs r).ctl = .unlink → m.point r = .own .prev

/-- The rest of a `listUnlinkAndInit`, up to its last store. -/
theorem unlink_reaches (x : WNode) (wrap : UnlinkPoint WNode → WakePoint) {a : UnlinkPoint WNode}
    (hstep : ∀ (t : Exits) (b c : UnlinkPoint WNode) (K : Links WNode), t.Turns r →
      t.point r = wrap b → unlinkStep x b t.links = (some c, K) →
        Step t .exit ((t.withLinks K).goes r (wrap c)))
    (hr : m.Turns r) (hp : m.point r = wrap a) :
  ∃ K p, Run.ReachAny Step m ((m.withLinks K).goes r (wrap (.initPrev p))) ∧
    K.setPrev x x = a.finish x m.links
  := by
  generalize hn : a.left = n
  induction n generalizing m a with
  | zero => cases a <;> cases hn
  | succ n ih =>
      obtain ⟨b, K, hs⟩ : ∃ b K, unlinkStep x a m.links = (b, K) := ⟨_, _, rfl⟩
      have hfinish := a.finish_step x m.links
      rw [hs] at hfinish
      cases b with
      | none =>
          obtain ⟨p, rfl, rfl⟩ := unlinkStep_none hs
          refine ⟨m.links, p, ?_, hfinish.symm⟩
          have hsame : (m.withLinks m.links).goes r (wrap (.initPrev p)) = m := by
            unfold goes withLinks
            rw [← hp, Function.update_eq_self]
            rfl
          rw [hsame]
          exact Run.Reach.refl m
      | some b =>
          have hfirst := hstep m a b K hr hp hs
          have hleft := unlinkStep_left hs
          obtain ⟨K', p, hreach, hK'⟩ := ih (m := (m.withLinks K).goes r (wrap b))
            ⟨⟨hr.runs.rp, hr.runs.pendsv, hr.runs.switching⟩, hr.ctl⟩
            (Function.update_self _ _ _) (by omega)
          refine ⟨K', p, ?_, hK'.trans hfinish.symm⟩
          have hgoes : (((m.withLinks K).goes r (wrap b)).withLinks K').goes r
              (wrap (.initPrev p)) = (m.withLinks K').goes r (wrap (.initPrev p)) := by
            unfold goes withLinks
            dsimp only
            rw [Function.update_idem]
            rfl
          rw [hgoes] at hreach
          exact Relation.ReflTransGen.head ⟨.exit, trivial, hfirst⟩ hreach

/-- A turn of the loop of `wakeWaiting`. -/
theorem turn_reaches (hr : m.Turns r) (hp : m.point r = .save (.nextWaitQ q)) :
  Run.ReachAny Step m
    (((m.withLinks (m.links.unlinkInit (.nextWaitQ q))).sets q fun x =>
      { x with state := .ready }).goes r
        (if m.links.next (.nextWaitQ q) = .waitQ r then .own .prev
          else .save (m.links.next (.nextWaitQ q))))
  := by
  generalize hsave : m.links.next (.nextWaitQ q) = save
  have h₁ := step_save hr hp
  rw [hsave] at h₁
  obtain ⟨K, p, hreach, hK⟩ := unlink_reaches (.nextWaitQ q) (.unlink q save)
    (fun t b c K hr hp hs => step_unlink hr hp hs) (hr.next (K := m.links)) (point_goes _)
  have h₂ := step_unlinked (hr.next (K := K) (a := .unlink q save (.initPrev p))) (point_goes _) rfl
  rw [links_goes] at h₂
  change Step _ .exit ((withLinks (K.setPrev _ _) _).goes _ _) at h₂
  rw [hK] at h₂
  have h₃ := step_ready (hr.next (K := m.links.unlinkInit (.nextWaitQ q)) (a := .ready q save))
    (point_goes _)
  simp only [withLinks_goes, withLinks_withLinks, sets_goes, goes_goes, links_goes] at hreach h₂ h₃
  exact Relation.ReflTransGen.head ⟨.exit, trivial, h₁⟩ ((hreach.snoc h₂).snoc h₃)

/-- The process `r` in its exit, when its point is `own` and the rest of the kernel is `k`. -/
def woken (r : ProcId) (k : Kernel) (m : Exits) : Exits :=
  { kernel := k.setProc r fun x => { x with ctl := .unlink }
    point := Function.update m.point r (.own .prev) }

/-- Changes of two processes that do not depend on each other. -/
theorem setProc_comm {f g : Proc → Proc} (h : ∀ x, f (g x) = g (f x)) (k : Kernel) :
  (k.setProc p f).setProc q g = (k.setProc q g).setProc p f
  := by
  unfold Kernel.setProc
  dsimp only
  by_cases hpq : p = q
  · subst hpq
    rw [Function.update_self, Function.update_self, Function.update_idem, Function.update_idem, h]
  · rw [Function.update_of_ne (Ne.symm hpq), Function.update_of_ne hpq, Function.update_comm hpq]

/-- The loop of `wakeWaiting`, when nothing comes in between. -/
theorem wakeLoop_reaches {n : ℕ} {pos save : WNode} (h : wakeLoop r n pos save k = .done () k')
    (hm : m.kernel = k.setProc r fun x => { x with ctl := .unlink }) (hr : Runs k r)
    (hp : m.point r = if pos = .waitQ r then .own .prev else .save pos)
    (hs : pos ≠ .waitQ r → save = k.waits.next pos) :
  Run.ReachAny Step m (m.woken r k')
  := by
  induction n generalizing m k pos save with
  | zero => cases h
  | succ n ih =>
      rw [wakeLoop.eq_def] at h
      dsimp only at h
      by_cases hpos : pos = .waitQ r
      · rw [if_pos hpos] at h hp
        cases h
        have hsame : m.woken r k' = m := by
          rw [woken, ← hm, ← hp, Function.update_eq_self]
        rw [hsame]
        exact Run.Reach.refl m
      · rw [if_neg hpos] at h hp
        cases pos with
        | null => cases h
        | waitQ q => cases h
        | nextWaitQ q =>
            have hturns : m.Turns r := by
              refine ⟨?_, ?_⟩
              · rw [hm]
                exact ⟨hr.rp, hr.pendsv, hr.switching⟩
              · rw [hm, Kernel.setProc_self]
            have hlinks : m.links = k.waits := by
              rw [links, hm]
              rfl
            have hturn := turn_reaches hturns hp
            rw [hlinks, ← hs hpos] at hturn
            have hrest := ih (m := ((m.withLinks (k.waits.unlinkInit (.nextWaitQ q))).sets q
              fun x => { x with state := .ready }).goes r
                (if save = .waitQ r then .own .prev else .save save)) h ?_
              ⟨hr.rp, hr.pendsv, hr.switching⟩ (point_goes _) ?_
            · have hsame : ∀ a, (((m.withLinks (k.waits.unlinkInit (.nextWaitQ q))).sets q
                  fun x => { x with state := .ready }).goes r a).woken r k' = m.woken r k' := by
                intro a
                unfold woken goes
                dsimp only
                rw [Function.update_idem]
                rfl
              rw [hsame] at hrest
              exact hturn.trans hrest
            · have hcomm := setProc_comm (p := r) (q := q) (f := fun x => { x with ctl := .unlink })
                (g := fun x => { x with state := .ready }) (fun x => rfl)
                  (k.setWaits (Links.unlinkInit (.nextWaitQ q)))
              rw [← hcomm]
              unfold goes sets withLinks
              dsimp only
              rw [hm]
              rfl
            · intro hne
              rw [if_neg hne]

/-- A process comes to the point after `wakeWaiting` by its exit. -/
theorem unlink_change {x : Proc} (hx : Change k e k' q x) (hc : x.ctl = .unlink) :
  (k.procs q).ctl = .unlink ∨ (e = .exit ∧ Executes k q)
  := by
  cases hx with
  | same => exact .inl hc
  | spawn => cases hc
  | waitpid => exact .inl hc
  | own hr hown =>
      cases hown with
      | mask => cases hc
      | sleep => cases hc
      | openFile => cases hc
      | closeFile => cases hc
      | closing => cases hc
      | armed => cases hc
      | armedNone => cases hc
      | disarming => cases hc
      | exitUnlink => cases hc
      | exitFree => cases hc
  | asleep => cases hc
  | exitWake he hr => exact .inr ⟨he, hr⟩
  | exitDead => cases hc
  | woken => exact .inl hc
  | parent => exact .inl hc
  | post => exact .inl hc
  | alarm => exact .inl hc
  | preempt he hr hw hx' =>
      obtain ⟨s, c, rfl⟩ := hx'.paused_form
      exact .inl hc
  | left => exact .inl hc
  | recycled => exact .inl hc
  | skip hh he hx' =>
      obtain ⟨s, c, rfl⟩ := hx'.self_form
      exact .inl hc
  | run hh he hx' =>
      obtain ⟨s, c, rfl⟩ := hx'.self_form
      exact .inl hc

/-- The first part of an exit, when nothing comes in between. -/
theorem begin_reaches (hr : Executes m.kernel r) (hw : wakeWaiting r m.kernel = .done () k) :
  Run.ReachAny Step m (m.woken r k)
  := by
  have hbegin : Step m .exit ((m.sets r fun x => { x with ctl := .unlink }).goes r .first) := by
    refine .exit hr.toRuns ?_
    rw [exit, bind_done (get_apply m), hr.ctl]
    rfl
  generalize hm₁ : (m.sets r fun x => { x with ctl := .unlink }).goes r .first = m₁ at hbegin
  have hkernel : m₁.kernel = m.kernel.setProc r fun x => { x with ctl := .unlink } := by
    rw [← hm₁]
    rfl
  have hfirst : m₁.point r = .first := by
    rw [← hm₁]
    exact point_goes _
  have hturns : m₁.Turns r := by
    refine ⟨?_, ?_⟩
    · rw [hkernel]
      exact ⟨hr.rp, hr.pendsv, hr.switching⟩
    · rw [hkernel, Kernel.setProc_self]
  have hwoken : ∀ a, (m₁.goes r a).woken r k = m.woken r k := by
    intro a
    rw [← hm₁, goes_goes]
    unfold woken goes sets
    dsimp only
    rw [Function.update_idem]
  have hlinks : m₁.links = m.kernel.waits := by
    rw [links, hkernel]
    rfl
  have hrun : Runs m.kernel r := hr.toRuns
  rw [wakeWaiting, bind_done (get_apply _)] at hw
  by_cases hn : m.kernel.waits.next (.waitQ r) = .waitQ r
  · rw [if_pos hn] at hw
    cases hw
    have hempty := step_empty hturns hfirst (by rw [hlinks, hn])
    have hsame : m₁.goes r (.own .prev) = m.woken r m.kernel := by
      rw [← hwoken .first]
      unfold woken goes
      dsimp only
      rw [Function.update_idem, hkernel]
    rw [← hsame]
    exact ((Run.Reach.refl m).snoc (C := fun _ _ => True) trivial hbegin).snoc trivial hempty
  · rw [if_neg hn] at hw
    have hnext := step_first hturns hfirst (by rw [hlinks]; exact hn)
    rw [hlinks] at hnext
    have hloop := wakeLoop_reaches
      (m := m₁.goes r (.save (m.kernel.waits.next (.waitQ r)))) hw hkernel hrun
      (by rw [point_goes, if_neg hn]) (fun _ => rfl)
    rw [hwoken] at hloop
    exact (((Run.Reach.refl m).snoc (C := fun _ _ => True) trivial hbegin).snoc trivial hnext).trans
      hloop

/-- The `listUnlinkAndInit` of an exit, when nothing comes in between. -/
theorem own_reaches (hr : m.Turns r) (hp : m.point r = .own .prev) :
  ∃ p, Run.ReachAny Step m (((m.withLinks (m.links.unlinkInit (.nextWaitQ r))).sets r
    fun x => { x with ctl := .free 0 }).goes r (.own (.initPrev p)))
  := by
  obtain ⟨K, p, hreach, hK⟩ := unlink_reaches (.nextWaitQ r) .own
    (fun t b c K hr hp hs => step_own hr hp hs) hr hp
  have hlast := step_left (hr.next (K := K) (a := .own (.initPrev p))) (point_goes _) rfl
  rw [links_goes] at hlast
  change Step _ .exit (((withLinks (K.setPrev _ _) _)).sets _ _) at hlast
  rw [hK] at hlast
  exact ⟨p, hreach.snoc hlast⟩

/-- Every step of the kernel is a run in which exits go on store by store. -/
theorem AtRest.reaches (h : m.AtRest) (hs : Process.Step m.kernel e k) :
  ∃ m', Run.ReachAny Step m m' ∧ m'.kernel = k ∧ m'.AtRest
  := by
  have hother : (e = .exit → ∀ r, ¬ Executes m.kernel r) → Step m e { m with kernel := k } →
      ∃ m', Run.ReachAny Step m m' ∧ m'.kernel = k ∧ m'.AtRest := by
    intro hx hstep
    refine ⟨_, (Run.Reach.refl m).snoc trivial hstep, rfl, ?_⟩
    intro r hc
    rcases unlink_change (hs.effect.change r) hc with hc | ⟨he, hr⟩
    · exact h r hc
    · exact absurd hr (hx he r)
  by_cases he : e = .exit
  · subst he
    cases hs with
    | @exit r _ hr hx =>
        have hrest : ∀ (m' : Exits), m'.kernel = k → (∀ q, q ≠ r → m'.point q = m.point q) →
            ((k.procs r).ctl = .unlink → m'.point r = .own .prev) → m'.AtRest := by
          rintro m' rfl hpoint hr' q hc
          by_cases hq : q = r
          · subst hq
            exact hr' hc
          · rw [hpoint q hq]
            rcases unlink_change ((effect_exit hr hx).change q) hc with hc | ⟨-, hr''⟩
            · exact h q hc
            · exact absurd (Rp.proc.inj (hr''.rp.symm.trans hr.rp)) hq
        by_cases hu : (m.kernel.procs r).ctl = .user
        · rw [__manos_exit, bind_done (get_apply _), hu] at hx
          change (wakeWaiting r >>= _) m.kernel = _ at hx
          obtain ⟨_, k₁, hw, hset⟩ := bind_eq_done_iff.mp hx
          cases hset
          refine ⟨_, begin_reaches ⟨hr, hu⟩ hw, rfl, hrest _ rfl ?_ ?_⟩
          · intro q hq
            exact Function.update_of_ne hq _ _
          · exact fun _ => Function.update_self _ _ _
        by_cases hl : (m.kernel.procs r).ctl = .unlink
        · obtain ⟨p, hreach⟩ := own_reaches ⟨hr, hl⟩ (h r hl)
          rw [__manos_exit, bind_done (get_apply _), hl] at hx
          cases hx
          refine ⟨_, hreach, rfl, hrest _ rfl ?_ ?_⟩
          · intro q hq
            exact Function.update_of_ne hq _ _
          · intro hfree
            change ((Kernel.setProc _ _ _).procs r).ctl = _ at hfree
            rw [Kernel.setProc_self] at hfree
            cases hfree
        apply hother
        · intro _ r' hr'
          cases hr.rp.symm.trans hr'.rp
          exact hu hr'.ctl
        · refine .exit hr ((exit_kernel hu hl).trans ?_)
          rw [onKernel, Exec.onPart, hx]
  · exact hother (fun hx => absurd hx he) (.other he hs)

/-- Every run of the kernel is one in which no exit is interrupted. -/
theorem reaches_of_kernel (h : m.AtRest) (hrun : Run.ReachAny Process.Step m.kernel k) :
  ∃ m', Run.ReachAny Step m m' ∧ m'.kernel = k ∧ m'.AtRest
  := by
  induction hrun with
  | refl => exact ⟨m, Run.Reach.refl m, rfl, h⟩
  | tail _ hlast ih =>
      obtain ⟨m₁, hm₁, rfl, hrest⟩ := ih
      obtain ⟨e, -, hs⟩ := hlast
      obtain ⟨m₂, hm₂, hk, hrest'⟩ := hrest.reaches hs
      exact ⟨m₂, hm₁.trans hm₂, hk, hrest'⟩

/-! ### Computed runs -/

/-- The state after an event, if it can happen and its code returns. -/
def next (m : Exits) : Event → Option Exits
  | .exit =>
    match m.kernel.runner with
    | some r =>
      match exit r m with
      | .done _ m' => some m'
      | .stop _ _ => none
    | none => none
  | e => (m.kernel.next e).map fun k => { m with kernel := k }

/-- What is computed is a step. -/
theorem step_of_next (h : m.next e = some m') :
  Step m e m'
  := by
  have hother : e ≠ .exit → ((m.kernel.next e).map fun k => { m with kernel := k }) = some m' →
      Step m e m' := by
    intro he hmap
    obtain ⟨k, hk, rfl⟩ := Option.map_eq_some_iff.mp hmap
    exact .other he (next_step hk)
  cases e with
  | exit =>
      unfold next at h
      cases hr : m.kernel.runner with
      | none =>
          rw [hr] at h
          cases h
      | some r =>
          rw [hr] at h
          dsimp only at h
          cases hx : exit r m with
          | stop f t =>
              rw [hx] at h
              cases h
          | done a t =>
              rw [hx] at h
              cases h
              exact .exit (runner_runs hr) hx
  | _ => exact hother nofun h

/-- The kernel `k`, when no process is in its exit. -/
def start (k : Kernel) : Exits := ⟨k, fun _ => .first⟩

theorem start_kernel (k : Kernel) :
  (start k).kernel = k
  := rfl

theorem start_booted :
  (start booted).Booted
  := by
  rw [Booted, start_kernel]
  exact booted_booted

/-- After boot no process is in its exit. -/
theorem Booted.atRest (h : m.Booted) :
  m.AtRest
  := by
  intro r hr
  rw [(Process.Booted.user h r).1] at hr
  cases hr

/-- A run, computed, whose steps meet a condition. -/
theorem exists_after {g : Exits → Event → Bool} {C : Exits → Event → Prop} {P : Exits → Bool}
    (hC : ∀ t e, g t e = true → C t e) (l : List Event)
    (h : (Run.after next g m l).any P = true) :
  ∃ m', Run.Reach Step C m m' ∧ P m' = true
  := by
  obtain ⟨m', hm', hP⟩ := (Option.any_eq_true P _).mp h
  exact ⟨m', Run.after_reaches (fun _ _ _ => step_of_next) hC hm', hP⟩

/-- A run of the kernel, computed, is one in which no exit is interrupted. -/
theorem exists_run {P : Kernel → Bool} (l : List Event) (h : (booted.trace l).any P = true) :
  ∃ m, Run.ReachAny Step (start booted) m ∧ P m.kernel = true
  := by
  obtain ⟨k, hk, hP⟩ := Process.exists_run l h
  rw [← start_kernel booted] at hk
  obtain ⟨m, hm, rfl, -⟩ := reaches_of_kernel start_booted.atRest hk
  exact ⟨m, hm, hP⟩

/-- A step, computed, after a computed run. -/
theorem exists_step {P : Exits → Exits → Bool} (l : List Event) (e : Event)
    (h : (Run.after next (fun _ _ => true) m l).any (fun t => (t.next e).any (P t)) = true) :
  ∃ t t', Run.ReachAny Step m t ∧ Step t e t' ∧ P t t' = true
  := by
  obtain ⟨t, ht, hnext⟩ := exists_after (C := fun _ _ => True) (fun _ _ _ => trivial) l h
  obtain ⟨t', ht', hP⟩ := (Option.any_eq_true (P t) _).mp hnext
  exact ⟨t, t', ht, step_of_next ht', hP⟩

end Exits

theorem runs_runner (h : Runs k r) :
  k.runner = some r
  := by
  rw [Kernel.runner, h.rp]
  exact if_pos ⟨h.pendsv, h.switching⟩

/-- The process that an exit makes ready in a step. -/
def Exits.readies (m : Exits) : Event → Option ProcId
  | .exit =>
    match m.kernel.runner.map m.point with
    | some (.ready q _) => some q
    | _ => none
  | _ => none

theorem readies_eq {m : Exits} (h : m.Readies e q) :
  m.readies e = some q
  := by
  obtain ⟨rfl, r, save, hr, hp⟩ := h
  simp only [Exits.readies, runs_runner hr.runs, Option.map_some, hp]

/-- Nothing is found on an empty queue. -/
theorem not_onQueue (h : k.waits.next (.waitQ p) = .waitQ p) (q : ProcId) :
  ¬ k.OnQueue p (.nextWaitQ q)
  := by
  have hself : ∀ x, k.OnQueue p x → x = .waitQ p := by
    intro x hx
    induction hx with
    | refl => rfl
    | tail _ hab ih => rw [← hab, ih, h]
  intro hq
  cases hself _ hq

end Process
