import Manos.Process.ExitStates

/-!
# The portals, when exits are interrupted

Every portal is passed to `kfree` once, provided that `SigAbort` is not handled of a process that
has already freed one of its open descriptors, and that no process goes on which was aborted with
open descriptors.
-/

namespace Process

namespace Exits

variable {m : Exits} {e : Event}

/-! ### The condition -/

/-- The step frees no portal twice: `SigAbort` is handled of no process with an open descriptor
whose portal was freed, and no process that was aborted with open descriptors goes on, made ready
by the `wakeWaiting` of a process that is aborted or stopped, by `SigContinue` of a child, or by
an exit. -/
structure KeepsPortals (m : Exits) (e : Event) : Prop where
  abort : ∀ p fd, Handles m.kernel e p → (m.kernel.procs p).handled = some sigAbort →
    m.kernel.table p fd ≠ none → ¬ (m.kernel.procs p).Gone fd
  woken : ∀ p q fd, (m.kernel.procs p).state = .dead → (m.kernel.procs p).ctl ≠ .yield →
    m.kernel.table p fd ≠ none → Handles m.kernel e q → (m.kernel.procs q).handled = some sigAbort ∨
      (m.kernel.procs q).handled = some sigStop → ¬ m.kernel.OnQueue q (.nextWaitQ p)
  parent : ∀ p q fd, (m.kernel.procs p).state = .dead → (m.kernel.procs p).ctl ≠ .yield →
    m.kernel.table p fd ≠ none → Handles m.kernel e q →
      (m.kernel.procs q).handled = some sigContinue →
        m.kernel.procTable (m.kernel.procs q).ppid ≠ .proc p
  ready : ∀ p fd, (m.kernel.procs p).state = .dead → (m.kernel.procs p).ctl ≠ .yield →
    m.kernel.table p fd ≠ none → ¬ m.Readies e p

/-- A step of the kernel meets the condition of the kernel. -/
theorem KeepsPortals.kernel (h : KeepsPortals m e)
    (hw : ∀ p, Wakes m.kernel e p → Handles m.kernel e p ∧
      ((m.kernel.procs p).handled = some sigAbort ∨ (m.kernel.procs p).handled = some sigStop)) :
  Process.KeepsPortals m.kernel e
  := by
  refine ⟨h.abort, ?_, h.parent⟩
  intro p q fd hd hc ht hq
  exact h.woken p q fd hd hc ht (hw q hq).1 (hw q hq).2

end Exits

/-! ### One step -/

/-- The portals, when a process comes to another point or into another state. -/
theorem Portals.set {k : Kernel} {q : ProcId} {g : Proc → Proc} {K : Links WNode} (h : Portals k)
    (hg : ∀ x, (g x).pid = x.pid ∧ (g x).descriptorTable = x.descriptorTable)
    (hgone : ∀ fd, k.table q fd ≠ none → (k.procs q).Gone fd → (g (k.procs q)).Gone fd) :
  Portals ((k.setProc q g).setWaits fun _ => K)
  := by
  generalize hk : (k.setProc q g).setWaits (fun _ => K) = k'
  have htable : ∀ p, k'.table p = k.table p := by
    rw [← hk]
    exact Kernel.setProc_field Proc.descriptorTable (hg _).2
  have hlive : ∀ p, Live k p → Live k' p := by
    intro p hp
    rw [Live, ← hk, Kernel.setWaits_procs, Kernel.setProc_field Proc.pid (hg _).1 p]
    exact hp
  have hfreed : k'.freed = k.freed := by
    rw [← hk]
    rfl
  have halloc : k'.allocated = k.allocated := by
    rw [← hk]
    rfl
  constructor
  · rw [hfreed, halloc]
    exact h.freed
  · intro p fd n
    rw [htable, halloc]
    exact h.opened p fd n
  · intro p p' fd fd' n
    rw [htable, htable]
    exact h.inj p p' fd fd' n
  · rw [hfreed]
    exact h.nodup
  · intro p fd n hn hin
    rw [htable] at hn
    rw [hfreed] at hin
    have hbefore := h.gone p fd n hn hin
    rw [← hk, Kernel.setWaits_procs]
    by_cases hp : p = q
    · subst hp
      rw [Kernel.setProc_self]
      apply hgone fd _ hbefore
      rw [hn]
      exact Option.some_ne_none n
    · rw [Kernel.setProc_of_ne hp]
      exact hbefore
  · intro p hp fd
    rw [htable]
    exact h.unused p (fun hl => hp (hlive p hl)) fd

namespace Exits

variable {m m' : Exits} {e : Event}

/-- Every step that frees no portal twice keeps the invariant, also when an exit is interrupted:
what a process frees it frees after its `wakeWaiting`. -/
theorem Ok.portals_step (h : m.Ok) (hP : Portals m.kernel) (hk : KeepsPortals m e)
    (he : m.Effect e m') :
  Portals m'.kernel
  := by
  obtain ⟨l, f, h⟩ := h
  rcases he.kernel with ⟨he, hw⟩ | ⟨r, K, c, hr, hc, hm⟩ | ⟨q, hq, hm⟩
  · exact h.portals_step hP (hk.kernel hw) he
  · rw [hm]
    refine hP.set (fun x => ⟨rfl, rfl⟩) ?_
    rintro fd - (hdead | hctl)
    · exact .inl hdead
    · rcases hc with hc | hc
      · rw [hc] at hctl
        exact hctl.elim
      · rw [hc] at hctl
        exact hctl.elim
  · rw [hm]
    refine hP.set (q := q) (g := fun x => { x with state := .ready }) (K := m.links)
      (fun x => ⟨rfl, rfl⟩) ?_
    intro fd ht hg
    refine gone_state (s := .ready) (c := (m.kernel.procs q).cause) hg ?_
    intro hd
    by_contra hc
    exact hk.ready q fd hd hc ht hq

/-! ### Every portal is freed once -/

/-- In every state of a run whose steps free no portal twice, no portal was passed to `kfree`
or `syskfree` twice. -/
theorem freed_once {m₀ m : Exits} (h₀ : m₀.Booted) (h : Run.Reach Step KeepsPortals m₀ m) :
  m.kernel.freed.Nodup
  := by
  have hinv : m.Ok ∧ Portals m.kernel := by
    have hbooted : Process.Booted m₀.kernel := h₀
    refine h.invariant (P := fun t => t.Ok ∧ Portals t.kernel)
      ⟨ok_reachable h₀ (Run.Reach.refl m₀), hbooted.portals⟩ ?_
    rintro t e t' ⟨hok, hP⟩ hk hs
    exact ⟨hok.step hs.effect, hok.portals_step hP hk hs.effect⟩
  exact hinv.2.nodup

/-- Of the processes only `SigAlarm` is handled, and other signals but `SigContinue` of one that
is in its own code, not dead, and has an empty queue; no dead process is made ready. -/
def once (m : Exits) (e : Event) : Bool :=
  (m.kernel.handles e).all (fun p => (m.kernel.procs p).handled = none ∨
    (m.kernel.procs p).handled = some sigAlarm ∨
      ((m.kernel.procs p).handled ≠ some sigContinue ∧ (m.kernel.procs p).state ≠ .dead ∧
        (m.kernel.procs p).ctl = .user ∧ m.links.next (.waitQ p) = .waitQ p)) &&
    (m.readies e).all fun q => (m.kernel.procs q).state ≠ .dead

theorem keepsPortals_of_once (h : m.once e = true) :
  KeepsPortals m e
  := by
  unfold once at h
  rw [Bool.and_eq_true, Option.all_eq_true, Option.all_eq_true] at h
  obtain ⟨hhandles, hready⟩ := h
  have honce : ∀ p s, Handles m.kernel e p → (m.kernel.procs p).handled = some s →
      s ≠ sigAlarm → (m.kernel.procs p).handled ≠ some sigContinue ∧
        (m.kernel.procs p).state ≠ .dead ∧ (m.kernel.procs p).ctl = .user ∧
          m.links.next (.waitQ p) = .waitQ p := by
    intro p s hp hs hne
    rcases of_decide_eq_true (hhandles p (handles_eq hp)) with hnone | halarm | hall
    · exact absurd (hnone.symm.trans hs) nofun
    · exact absurd (Option.some.inj (hs.symm.trans halarm)) hne
    · exact hall
  constructor
  · intro p fd hp hs _
    obtain ⟨-, hd, hc, -⟩ := honce p _ hp hs (by decide)
    exact not_gone (fun hdead => absurd hdead hd) (.inl hc)
  · intro p q fd _ _ _ hq hs
    have hempty : m.links.next (.waitQ q) = .waitQ q := by
      rcases hs with hs | hs
      · exact (honce q _ hq hs (by decide)).2.2.2
      · exact (honce q _ hq hs (by decide)).2.2.2
    exact not_onQueue hempty p
  · intro p q fd _ _ _ hq hs
    exact absurd hs (honce q _ hq hs (by decide)).1
  · intro p fd hd _ _ hq
    exact absurd hd (of_decide_eq_true (hready p (readies_eq hq)))

/-- The process with the pid 2 exits, interrupted by the scheduler, and the one that waited for it
closes a descriptor. -/
def exitCloses : List Event :=
  List.replicate 6 .exit ++ [.post 2 sigAlarm, .preempt, .leave, .dispatch, .dispatch, .dispatch,
    .dispatch] ++ List.replicate 11 .exit ++ [.preempt, .leave, .dispatch, .dispatch, .closeFile 0,
    .resume]

theorem freed_once_exit :
  ∃ m, Run.Reach Step KeepsPortals (start booted) m ∧ m.kernel.freed = [5, 3, 1] ∧
    m.kernel.freed.Nodup
  := by
  obtain ⟨m, hm, hP⟩ := exists_after (m := start booted) (C := KeepsPortals) (g := once)
    (P := fun m => m.kernel.freed = [5, 3, 1]) (fun _ _ => keepsPortals_of_once)
    (signalled sigAbort ++ exitCloses) (by decide +kernel)
  exact ⟨m, hm, of_decide_eq_true hP, freed_once start_booted hm⟩

/-- A process frees its descriptor in its exit, and `SigAbort` of it is handled when the scheduler
looks for the next one to run: the portal is freed again. -/
theorem freed_twice :
  ¬ ∀ m₀ m : Exits, m₀.Booted → Run.ReachAny Step m₀ m → m.kernel.freed.Nodup
  := by
  intro hclaim
  obtain ⟨m, hm, hP⟩ := exists_run (P := fun k => ¬ k.freed.Nodup)
    [.preempt, .leave, .dispatch, .dispatch, .exit, .exit, .exit, .preempt, .leave,
      .post 1 sigAbort, .dispatch, .dispatch] (by decide +kernel)
  exact of_decide_eq_true hP (hclaim _ m start_booted hm)

end Exits

end Process
