import Manos.Process.States

/-!
# The order of the run queue

The scheduler scans the run queue from its start, and takes the first process that it finds
ready.  A process that waits for its turn is overtaken by no process twice.
-/

namespace Process

open Exec

variable {k k' : Kernel} {p q : ProcId} {e : Event} {r r₁ r₂ f : List ProcId} {save : QNode}

/-! ### The scan of the queue -/

/-- The scan has come to the processes `l`, or to the end of the queue if there are none. -/
def Kernel.ScanAt (l : List ProcId) (k : Kernel) : Prop :=
  ∃ save, k.scan = some ((l.map .proc).headD .head, save)

/-- The scheduler has found the process `p` not ready, and goes on after it. -/
inductive Passed (k : Kernel) (p : ProcId) : Prop where
  | dead (hd : (k.procs p).state = .dead)
  | notReady {k₁ : Kernel} (hd : (k.procs p).state ≠ .dead)
      (hs : processSignals p k = .done () k₁) (hn : (k₁.procs p).state ≠ .ready)

/-- The scheduler has found the process `p` ready, after its signals were handled. -/
def Found (k : Kernel) (p : ProcId) : Prop :=
  (k.procs p).state ≠ .dead ∧
    ∃ k₁, processSignals p k = .done () k₁ ∧ (k₁.procs p).state = .ready

/-- The scan that starts in the state `k` has come to the state `k'`, and has passed the
processes `l`, in this order. -/
inductive Passes (k : Kernel) : List ProcId → Kernel → Prop where
  | start {k' : Kernel} (hs : k.scan = none) (h : Step k .dispatch k') (hn : k'.scan ≠ none) :
      Passes k [] k'
  | pass {k₁ k₂ : Kernel} {p : ProcId} {save : QNode} {l : List ProcId} (hl : Passes k l k₁)
      (hs : k₁.scan = some (.proc p, save)) (hp : Passed k₁ p) (h : Step k₁ .dispatch k₂) :
      Passes k (l ++ [p]) k₂

/-- What comes after an entry of the queue. -/
theorem Places.next_entry (h : Places k (r₁ ++ p :: r₂) f) (hs : k.scan = some (.proc p, save)) :
  save = (r₂.map .proc).headD .head
  := by
  obtain ⟨-, hpos | ⟨q, hq, hpos, hsave⟩⟩ := h.scan _ _ hs
  · cases hpos
  · cases hpos
    rw [hsave]
    have hring := h.runQ
    rw [List.map_append, List.map_cons] at hring
    exact hring.neighbours.2

/-- What a turn of the scan does to the queue. -/
inductive Turn (k k' : Kernel) (p : ProcId) (r₁ r₂ : List ProcId) : Prop where
  | recycled {f' : List ProcId} (hp : Passed k p) (hd : (k.procs p).state = .dead)
      (h : Places k' (r₁ ++ r₂) f') (hs : k'.ScanAt r₂)
  | passed {f' : List ProcId} (hp : Passed k p) (h : Places k' (r₁ ++ p :: r₂) f')
      (hs : k'.ScanAt r₂)
  | found {f' : List ProcId} (hp : Found k p) (h : Places k' (r₁ ++ r₂) f')
      (hs : k'.scan = none) (hr : k'.rp = .proc p)

theorem Places.turn (h : Places k (r₁ ++ p :: r₂) f) (hs : k.scan = some (.proc p, save))
    (he : Effect k .dispatch k') :
  Turn k k' p r₁ r₂
  := by
  have hsave := h.next_entry hs
  cases he with
  | start hr hsc => exact absurd (hsc.symm.trans hs) nofun
  | idle hr hsc => exact absurd (hsc.symm.trans hs) nofun
  | stop hr hsc => exact absurd (hsc.symm.trans hs) nofun
  | recycle hr hsc hd =>
      cases hsc.symm.trans hs
      exact .recycled (.dead hd) hd ((h.recycle hr).advance hr hsave) ⟨_, by rw [← hsave]; rfl⟩
  | @skip _ _ k₁ hr hsc hd hh hn =>
      cases hsc.symm.trans hs
      have hstill := handleSignals_still hh
      have hk₁ : Places (k₁.reset p) (r₁ ++ p :: r₂) f := (h.still hstill).congr rfl rfl rfl rfl
      have hdone : processSignals p k = .done () (k₁.reset p) := bind_done hh
      refine @Turn.passed k _ p r₁ r₂ f (.notReady hd hdone ?_) ?_ ⟨_, by rw [← hsave]; rfl⟩
      · rw [Kernel.reset, Kernel.setProc_self]
        exact hn
      · rw [List.append_cons] at hk₁ ⊢
        exact hk₁.advance (hstill.rp.trans hr) hsave
  | @run _ _ k₁ hr hsc hd hh hn =>
      cases hsc.symm.trans hs
      have hstill := handleSignals_still hh
      have hk₁ : Places (k₁.reset p) (r₁ ++ p :: r₂) f := (h.still hstill).congr rfl rfl rfl rfl
      have hdone : processSignals p k = .done () (k₁.reset p) := bind_done hh
      refine .found ⟨hd, _, hdone, ?_⟩ (hk₁.run (hstill.rp.trans hr)) rfl rfl
      rw [Kernel.reset, Kernel.setProc_self]
      exact hn

/-- The other steps put processes at the end of the queue. -/
theorem Places.grow (h : Places k r f) (he : Effect k e k') (hd : e ≠ .dispatch) :
  ∃ r' f', Places k' (r ++ r') f' ∧ k'.scan = k.scan
  := by
  cases e with
  | exec tty =>
      cases he with
      | exec hr hf h₀ ht =>
          obtain ⟨f', rfl, hk'⟩ := h.spawn (h.scan_none hr.rp) (-1) hf
          exact ⟨_, f', hk', rfl⟩
      | execOpen hr hf h₀ ht hd =>
          obtain ⟨f', rfl, hk'⟩ := h.spawn (h.scan_none hr.rp) (-1) hf
          exact ⟨_, f', hk'.congr rfl rfl rfl rfl, rfl⟩
  | preempt =>
      cases he with
      | preempt hr hw hh =>
          have hstill := (paused_still _ k).trans (handleSignals_still hh)
          refine ⟨[], f, ?_, hstill.scan⟩
          rw [List.append_nil]
          exact h.congr hstill.runQ hstill.freelist hstill.rp hstill.scan
      | preemptNone hr hw =>
          refine ⟨[], f, ?_, rfl⟩
          rw [List.append_nil]
          exact h.congr rfl rfl rfl rfl
  | leave =>
      cases he with
      | leave hr hw => exact ⟨_, f, h.leave hr, rfl⟩
      | leaveNone hr hw =>
          have hnil : k.rp.toList = [] := by
            cases hrp : k.rp with
            | null => rfl
            | bad => rfl
            | proc p => exact absurd hrp (hr p)
          refine ⟨[], f, ?_, rfl⟩
          rw [List.append_nil]
          refine ⟨h.runQ, h.freelist, ?_, ?_⟩
          · have hperm := h.perm
            rw [hnil] at hperm
            exact hperm
          · intro pos save hscan
            exact ⟨rfl, (h.scan pos save hscan).2⟩
  | dispatch => exact absurd rfl hd
  | _ =>
      obtain ⟨hq, hf, hr, hs⟩ := he.places nofun nofun nofun nofun
      refine ⟨[], f, ?_, hs⟩
      rw [List.append_nil]
      exact h.congr hq hf hr hs

/-- A scan starts at the first entry of the queue. -/
theorem Places.begin (h : Places k r f) (hs : k.scan = none) (he : Effect k .dispatch k') :
  Places k' r f ∧ (k'.scan = none ∨ k'.ScanAt r)
  := by
  cases he with
  | start hr hsc hn =>
      have hat : (k.runQ.next .head) = (r.map QNode.proc).headD .head :=
        h.runQ.neighbours_head.1
      refine ⟨⟨h.runQ, h.freelist, h.perm, ?_⟩, .inr ⟨_, by rw [← hat]⟩⟩
      rintro pos save ⟨⟩
      refine ⟨hr, ?_⟩
      cases r with
      | nil => exact .inl hat
      | cons p r =>
          right
          refine ⟨p, List.mem_cons_self, hat, ?_⟩
          rw [hat]
          rfl
  | idle hr hsc hn => exact ⟨h, .inl hs⟩
  | stop hr hsc => exact absurd (hs.symm.trans hsc) nofun
  | recycle hr hsc => exact absurd (hs.symm.trans hsc) nofun
  | skip hr hsc => exact absurd (hs.symm.trans hsc) nofun
  | run hr hsc => exact absurd (hs.symm.trans hsc) nofun

/-- A scan ends after the last entry of the queue. -/
theorem Places.stop (h : Places k r f) (hs : k.ScanAt []) (he : Effect k .dispatch k') :
  Places k' r f ∧ k'.scan = none
  := by
  obtain ⟨save, hs⟩ := hs
  cases he with
  | start hr hsc => exact absurd (hsc.symm.trans hs) nofun
  | idle hr hsc => exact absurd (hsc.symm.trans hs) nofun
  | stop hr hsc =>
      refine ⟨⟨h.runQ, h.freelist, h.perm, ?_⟩, rfl⟩
      rintro pos save ⟨⟩
  | recycle hr hsc => exact absurd (hsc.symm.trans hs) nofun
  | skip hr hsc => exact absurd (hsc.symm.trans hs) nofun
  | run hr hsc => exact absurd (hsc.symm.trans hs) nofun

/-! ### Waiting in the queue -/

/-- The process `q` is on the run queue and ready, and has no pending signals. -/
structure Waits (k : Kernel) (q : ProcId) : Prop where
  queued : ∃ l : List ProcId, k.runQ.Ring .head (l.map .proc) ∧ q ∈ l
  ready : (k.procs q).state = .ready
  none : (k.procs q).sigPending = 0

theorem Places.waits (h : Places k r f) (hq : Waits k q) :
  q ∈ r
  := by
  obtain ⟨l, hring, hmem⟩ := hq.queued
  have hsame : l.map QNode.proc = r.map QNode.proc := by
    rw [← hring.members (le_max_left _ (r.map QNode.proc).length),
      h.runQ.members (le_max_right (l.map QNode.proc).length _)]
  have hinj : Function.Injective QNode.proc := fun a b hab => QNode.proc.inj hab
  rw [← List.map_injective_iff.mpr hinj hsame]
  exact hmem

/-- A process without pending signals has none handled. -/
theorem handled_none {x : Proc} (h : x.sigPending = 0) :
  x.handled = none
  := by
  simp [Proc.handled, Proc.Pending, h]

/-- A process that waits for its turn is found when the scan comes to it. -/
theorem Waits.not_passed (h : Waits k q) :
  ¬ Passed k q
  := by
  rintro (hd | ⟨hd, hs, hn⟩)
  · exact absurd (h.ready.symm.trans hd) nofun
  · obtain ⟨k₁, hh, rfl⟩ := processSignals_done hs
    unfold Kernel.reset at hn
    rw [Kernel.setProc_self] at hn
    apply hn
    have hnone := handled_none h.none
    cases handleSignals_handled hh with
    | none => exact h.ready
    | abort hsig => exact absurd (hnone.symm.trans hsig) nofun
    | stop hsig => exact absurd (hnone.symm.trans hsig) nofun
    | continued hsig => exact absurd (hnone.symm.trans hsig) nofun
    | alarm hsig => exact absurd (hnone.symm.trans hsig) nofun

/-- The process `p` is not before `q` in the queue, and the scan, if there is one, is not past
`q`. -/
def Behind (k : Kernel) (p q : ProcId) : Prop :=
  ∃ l₁ l₂ f, Places k (l₁ ++ q :: l₂) f ∧ p ∉ l₁ ∧
    (k.scan = none ∨ ∃ a b, l₁ = a ++ b ∧ k.ScanAt (b ++ q :: l₂))

/-- A process stays behind one that waits for its turn. -/
theorem Behind.step (h : Behind k p q) (hq : Waits k q) (hq' : Waits k' q) (he : Effect k e k') :
  Behind k' p q
  := by
  obtain ⟨l₁, l₂, f, hp, hnot, hscan⟩ := h
  by_cases hd : e = .dispatch
  · subst hd
    rcases hscan with hs | ⟨a, b, rfl, hs⟩
    · obtain ⟨hp', hs'⟩ := hp.begin hs he
      refine ⟨l₁, l₂, f, hp', hnot, ?_⟩
      rcases hs' with hs' | hs'
      · exact .inl hs'
      · exact .inr ⟨[], l₁, rfl, hs'⟩
    · obtain ⟨save, hs⟩ := hs
      cases b with
      | nil =>
          rw [List.append_nil] at hp hnot
          cases hp.turn hs he with
          | recycled hpass => exact absurd hpass hq.not_passed
          | passed hpass => exact absurd hpass hq.not_passed
          | found _ hp' _ hr => exact absurd (hp'.waits hq') (hp'.notMem_of_rp hr).1
      | cons x b =>
          rw [List.append_assoc, List.cons_append] at hp
          have hnot' : p ∉ a ++ b := by
            simp only [List.mem_append, List.mem_cons, not_or] at hnot ⊢
            exact ⟨hnot.1, hnot.2.2⟩
          cases hp.turn hs he with
          | recycled _ _ hp' hs' =>
              rw [← List.append_assoc] at hp'
              exact ⟨a ++ b, l₂, _, hp', hnot', .inr ⟨a, b, rfl, hs'⟩⟩
          | passed _ hp' hs' =>
              rw [← List.cons_append, ← List.append_assoc] at hp'
              refine ⟨a ++ x :: b, l₂, _, hp', hnot, .inr ⟨a ++ [x], b, ?_, hs'⟩⟩
              rw [List.append_assoc, List.singleton_append]
          | found _ hp' hs' _ =>
              rw [← List.append_assoc] at hp'
              exact ⟨a ++ b, l₂, _, hp', hnot', .inl hs'⟩
  · obtain ⟨r', f', hp', hs'⟩ := hp.grow he hd
    rw [List.append_assoc, List.cons_append] at hp'
    refine ⟨l₁, l₂ ++ r', f', hp', hnot, ?_⟩
    rcases hscan with hs | ⟨a, b, hab, save, hs⟩
    · exact .inl (hs'.trans hs)
    · refine .inr ⟨a, b, hab, save, ?_⟩
      rw [hs', hs]
      cases b with
      | nil => rfl
      | cons x b => rfl

/-- The process that is taken by the scheduler. -/
theorem Effect.dispatched (h : Effect k .dispatch k') (hr : k'.rp = .proc p) :
  ∃ save, k.scan = some (.proc p, save)
  := by
  cases h with
  | start hrp => exact absurd (hrp.symm.trans hr) nofun
  | idle hrp => exact absurd (hrp.symm.trans hr) nofun
  | stop hrp => exact absurd (hrp.symm.trans hr) nofun
  | recycle hrp => exact absurd (hrp.symm.trans hr) nofun
  | skip hrp hs hd hh =>
      have hbad := (handleSignals_still hh).rp.trans hrp
      exact absurd (hbad.symm.trans hr) nofun
  | run hrp hs =>
      cases hr
      exact ⟨_, hs⟩

/-- A process that is behind a waiting one is not taken. -/
theorem Behind.not_dispatched (h : Behind k p q) (hpq : p ≠ q) (he : Effect k .dispatch k') :
  k'.rp ≠ .proc p
  := by
  intro hr
  obtain ⟨save, hs⟩ := he.dispatched hr
  obtain ⟨l₁, l₂, f, hp, hnot, hnone | ⟨a, b, rfl, save', hs'⟩⟩ := h
  · exact absurd (hnone.symm.trans hs) nofun
  · have hhead := hs.symm.trans hs'
    simp only [Option.some.injEq, Prod.mk.injEq] at hhead
    cases b with
    | nil => exact hpq (QNode.proc.inj hhead.1)
    | cons x b =>
        apply hnot
        rw [QNode.proc.inj hhead.1]
        exact List.mem_append_right a List.mem_cons_self

/-- A process that was taken is behind every process that waits. -/
theorem Places.behind (h : Places k r f) (hr : k.rp = .proc p) (hq : Waits k q) :
  Behind k p q ∧ p ≠ q
  := by
  have hmem := h.waits hq
  have hnot := (h.notMem_of_rp hr).1
  have hs := h.scan_none hr
  obtain ⟨l₁, l₂, rfl⟩ := List.append_of_mem hmem
  rw [List.mem_append, not_or, List.mem_cons, not_or] at hnot
  exact ⟨⟨l₁, l₂, f, h, hnot.1, .inl hs⟩, hnot.2.1⟩

/-! ### The first ready process -/

/-- The scan of the queue, from its start on. -/
def Scans (k₀ k : Kernel) : Prop :=
  k.scan = none ∨ ∃ s l r₁ r₂ f, Run.ReachAny Step k₀ s ∧ s.runQ.Ring .head ((l ++ r₂).map .proc) ∧
    Passes s l k ∧ Places k (r₁ ++ r₂) f ∧ k.ScanAt r₂

theorem Scans.step {k₀ : Kernel} (h : Scans k₀ k) (hreach : Run.ReachAny Step k₀ k)
    (hp : Places k r f) (hs : Step k e k') (hd : k.scan ≠ none → e = .dispatch) :
  Scans k₀ k'
  := by
  by_cases he : e = .dispatch
  · subst he
    rcases h with hnone | ⟨s, l, r₁, r₂, f', hreach', hring, hpass, hp', hat⟩
    · obtain ⟨hp', hs' | hs'⟩ := hp.begin hnone hs.effect
      · exact .inl hs'
      · have hsome : k'.scan ≠ none := by
          obtain ⟨save, hs'⟩ := hs'
          rw [hs']
          nofun
        exact .inr ⟨k, [], [], r, f, hreach, hp.runQ, .start hnone hs hsome, hp', hs'⟩
    · cases r₂ with
      | nil =>
          rw [List.append_nil] at hp'
          exact .inl (hp'.stop hat hs.effect).2
      | cons p r₂ =>
          obtain ⟨save, hat⟩ := hat
          have hring' : s.runQ.Ring .head ((l ++ [p] ++ r₂).map .proc) := by
            rw [List.append_assoc, List.singleton_append]
            exact hring
          cases hp'.turn hat hs.effect with
          | recycled hpd _ hp'' hs' =>
              exact .inr ⟨s, l ++ [p], r₁, r₂, _, hreach', hring', .pass hpass hat hpd hs, hp'', hs'⟩
          | passed hpd hp'' hs' =>
              rw [List.append_cons] at hp''
              exact .inr ⟨s, l ++ [p], _, r₂, _, hreach', hring', .pass hpass hat hpd hs, hp'', hs'⟩
          | found _ _ hs' _ => exact .inl hs'
  · have hnone : k.scan = none := by
      by_contra hsome
      exact he (hd hsome)
    obtain ⟨r', f', -, hs'⟩ := hp.grow hs.effect he
    exact .inl (hs'.trans hnone)

/-- While the scheduler looks for a process nothing else happens. -/
theorem Step.scanning (h : Step k e k') (hp : Places k r f)
    (hw : k.rp = .bad → k.switching = false) (hs : k.scan ≠ none) :
  e = .dispatch
  := by
  have hrun : ∀ p, k.rp ≠ .proc p := fun p hr => hs (hp.scan_none hr)
  cases h with
  | dispatch => rfl
  | exec hr => exact absurd hr.rp (hrun _)
  | waitpid hr => exact absurd hr.rp (hrun _)
  | sleep hr => exact absurd hr.rp (hrun _)
  | openFile hr => exact absurd hr.rp (hrun _)
  | closeFile hr => exact absurd hr.rp (hrun _)
  | resume hr => exact absurd hr.rp (hrun _)
  | mask hr => exact absurd hr.rp (hrun _)
  | block hr => exact absurd hr.rp (hrun _)
  | unblock hr => exact absurd hr.rp (hrun _)
  | exit hr => exact absurd hr.rp (hrun _)
  | post hn => exact absurd hn hs
  | alarms hn => exact absurd hn hs
  | tick hn => exact absurd hn hs
  | preempt hr =>
      obtain ⟨x, hx⟩ := Option.ne_none_iff_exists.mp hs
      exact absurd (hp.scan x.1 x.2 hx.symm).1 hr
  | leave hsw =>
      obtain ⟨x, hx⟩ := Option.ne_none_iff_exists.mp hs
      have hbad := (hp.scan x.1 x.2 hx.symm).1
      exact absurd ((hw hbad).symm.trans hsw) nofun

/-- The scheduler is not about to reset signals when it has left the process that ran. -/
theorem Effect.switching (h : Effect k e k') (hw : k.rp = .bad → k.switching = false)
    (hr : k'.rp = .bad) :
  k'.switching = false
  := by
  cases h with
  | exitWake hr' hc hw' =>
      have hstill := (wakeWaiting_woken hw').still
      exact hstill.switching.trans (hw (hstill.rp.symm.trans hr))
  | preempt hr' hw' hh =>
      have hstill := (paused_still _ k).trans (handleSignals_still hh)
      have hbad : k.rp = .bad := hstill.rp.symm.trans hr
      exact absurd (hr'.symm.trans hbad) nofun
  | preemptNone hr' => exact absurd (hr'.symm.trans hr) nofun
  | leave => rfl
  | leaveNone => rfl
  | skip hr' hs hd hh =>
      have hstill := handleSignals_still hh
      exact hstill.switching.trans (hw hr')
  | run => cases hr
  | _ => exact hw hr

/-! ### Round robin -/

/-- What holds of the scheduler in every state of a run. -/
structure Turns (k₀ k : Kernel) : Prop where
  places : ∃ r f, Places k r f
  switching : k.rp = .bad → k.switching = false
  scans : Scans k₀ k

/-- After boot the scheduler has not run. -/
theorem Booted.idle (h : Booted k) :
  k.rp = .null ∧ k.scan = none
  := by
  obtain ⟨freelist, memory, tty, p, -, hsched⟩ := h.spawned
  obtain ⟨hrp, hscan, -⟩ := schedProc_rest hsched
  exact ⟨hrp, hscan⟩

theorem turns_reachable {k₀ : Kernel} (h₀ : Booted k₀) (h : Run.ReachAny Step k₀ k) :
  Turns k₀ k
  := by
  have hinv : Run.ReachAny Step k₀ k ∧ Turns k₀ k := by
    refine h.invariant (P := fun k => Run.ReachAny Step k₀ k ∧ Turns k₀ k) ⟨Run.Reach.refl k₀, ?_⟩ ?_
    · obtain ⟨r, f, hp⟩ := h₀.places
      obtain ⟨hrp, hs⟩ := h₀.idle
      refine ⟨⟨r, f, hp⟩, ?_, .inl hs⟩
      intro hbad
      exact absurd (hrp.symm.trans hbad) nofun
    · rintro t e t' ⟨hreach, ⟨r, f, hp⟩, hw, hscan⟩ - hs
      refine ⟨hreach.snoc hs, ?_, hs.effect.switching hw, ?_⟩
      · obtain ⟨r', f', hp', -⟩ := hp.step hs.effect
        exact ⟨r', f', hp'⟩
      · exact hscan.step hreach hp hs (hs.scanning hp hw)
  exact hinv.2

/-- Between two times that the scheduler takes a process, it takes every process that waits in
the queue all the time; and it takes the first process of the queue that it finds ready. -/
theorem round_robin {k₀ : Kernel} (h₀ : Booted k₀) :
  (∀ k₁ k₂ k₃ k₄ p q, Run.ReachAny Step k₀ k₁ → Step k₁ .dispatch k₂ → k₂.rp = .proc p →
    Run.Reach Step (fun t _ => Waits t q) k₂ k₃ → Waits k₃ q → Step k₃ .dispatch k₄ →
      k₄.rp ≠ .proc p) ∧
  ∀ k k' p, Run.ReachAny Step k₀ k → Step k .dispatch k' → k'.rp = .proc p →
    ∃ s l r, Run.ReachAny Step k₀ s ∧ s.runQ.Ring .head ((l ++ p :: r).map .proc) ∧
      Passes s l k ∧ Found k p
  := by
  constructor
  · intro k₁ k₂ k₃ k₄ p q hreach h₁ hr hrun hq h₃
    have hinv : Waits k₃ q → Behind k₃ p q ∧ p ≠ q := by
      refine hrun.invariant (P := fun k => Waits k q → Behind k p q ∧ p ≠ q) ?_ ?_
      · intro hq
        obtain ⟨r, f, hp⟩ := (turns_reachable h₀ (hreach.snoc h₁)).places
        exact hp.behind hr hq
      · rintro t e t' hbehind hqt hs hqt'
        obtain ⟨hb, hpq⟩ := hbehind hqt
        exact ⟨hb.step hqt hqt' hs.effect, hpq⟩
    obtain ⟨hb, hpq⟩ := hinv hq
    exact hb.not_dispatched hpq h₃.effect
  · intro k k' p hreach hs hr
    obtain ⟨-, -, hnone | ⟨s, l, r₁, r₂, f, hreach', hring, hpass, hp, save, hat⟩⟩ :=
      turns_reachable h₀ hreach
    · obtain ⟨save, hsome⟩ := hs.effect.dispatched hr
      exact absurd (hnone.symm.trans hsome) nofun
    · obtain ⟨save', hsome⟩ := hs.effect.dispatched hr
      have hhead := hsome.symm.trans hat
      simp only [Option.some.injEq, Prod.mk.injEq] at hhead
      cases r₂ with
      | nil => exact absurd hhead.1 nofun
      | cons x r₂ =>
          cases QNode.proc.inj hhead.1
          refine ⟨s, l, r₂, hreach', hring, hpass, ?_⟩
          cases hp.turn hat hs.effect with
          | recycled _ _ hp' hs' =>
              obtain ⟨save'', hs'⟩ := hs'
              exact absurd ((hp'.scan_none hr).symm.trans hs') nofun
          | passed _ hp' hs' =>
              obtain ⟨save'', hs'⟩ := hs'
              exact absurd ((hp'.scan_none hr).symm.trans hs') nofun
          | found hfound => exact hfound

/-- A ready process that is neither free nor the running one waits in the queue. -/
theorem Inv.waits (h : Inv k r f) (hl : Live k q) (hr : k.rp ≠ .proc q)
    (hready : (k.procs q).state = .ready) (hnone : (k.procs q).sigPending = 0) :
  Waits k q
  := by
  refine ⟨⟨r, h.places.runQ, ?_⟩, hready, hnone⟩
  have hf := h.table.live_iff.mp hl
  rcases h.places.mem q with hmem | hmem | hmem
  · exact hmem
  · exact absurd hmem hf
  · exact absurd hmem hr

/-- A decidable form of `Waits`. -/
def waiting (q : ProcId) (k : Kernel) : Bool :=
  Live k q ∧ k.rp ≠ .proc q ∧ (k.procs q).state = .ready ∧ (k.procs q).sigPending = 0

theorem waits_of_waiting (h : Run.ReachAny Step booted k) (hw : waiting q k = true) :
  Waits k q
  := by
  obtain ⟨r, f, hinv⟩ := inv_reachable booted_booted h
  obtain ⟨hl, hr, hready, hnone⟩ := of_decide_eq_true hw
  exact hinv.waits hl hr hready hnone

theorem round_robin_torgo :
  (∃ k₂ k₄, Run.ReachAny Step booted k₂ ∧ k₂.rp = .proc 125 ∧ Run.ReachAny Step k₂ k₄ ∧
    k₄.rp ≠ .proc 125) ∧
  ∃ k s l r, Run.ReachAny Step booted k ∧ s.runQ.Ring .head ((l ++ 125 :: r).map .proc) ∧
    Passes s l k ∧ Found k 125
  := by
  obtain ⟨k₁, hk₁, hP⟩ := exists_run
    (P := fun k => (k.next .dispatch).any fun k₂ => k₂.rp = .proc 125 ∧ waiting 126 k₂ ∧
      (k₂.next .preempt).any fun t₁ => waiting 126 t₁ ∧ (t₁.next .leave).any fun t₂ =>
        waiting 126 t₂ ∧ (t₂.next .dispatch).any fun k₃ => waiting 126 k₃ ∧
          (k₃.next .dispatch).isSome)
    [.preempt, .leave, .dispatch, .dispatch, .exec true, .preempt, .leave, .dispatch]
    (by decide +kernel)
  obtain ⟨k₂, h₁, hP⟩ := (Option.any_eq_true _ _).mp hP
  obtain ⟨hr, hw₂, hP⟩ := of_decide_eq_true hP
  obtain ⟨t₁, h₂, hP⟩ := (Option.any_eq_true _ _).mp hP
  obtain ⟨hwt₁, hP⟩ := of_decide_eq_true hP
  obtain ⟨t₂, ht₁, hP⟩ := (Option.any_eq_true _ _).mp hP
  obtain ⟨hwt₂, hP⟩ := of_decide_eq_true hP
  obtain ⟨k₃, ht₂, hP⟩ := (Option.any_eq_true _ _).mp hP
  obtain ⟨hw₃, hP⟩ := of_decide_eq_true hP
  obtain ⟨k₄, h₃⟩ := Option.isSome_iff_exists.mp hP
  have hk₂ : Run.ReachAny Step booted k₂ := hk₁.snoc (next_step h₁)
  have hkt₁ : Run.ReachAny Step booted t₁ := hk₂.snoc (next_step h₂)
  have hkt₂ : Run.ReachAny Step booted t₂ := hkt₁.snoc (next_step ht₁)
  have hk₃ : Run.ReachAny Step booted k₃ := hkt₂.snoc (next_step ht₂)
  have hrun : Run.Reach Step (fun t _ => Waits t 126) k₂ k₃ := by
    refine Run.Reach.snoc ?_ (waits_of_waiting hkt₂ hwt₂) (next_step ht₂)
    refine Run.Reach.snoc ?_ (waits_of_waiting hkt₁ hwt₁) (next_step ht₁)
    exact (Run.Reach.refl k₂).snoc (waits_of_waiting hk₂ hw₂) (next_step h₂)
  have hall := round_robin booted_booted
  refine ⟨⟨k₂, k₄, hk₂, hr, ?_, ?_⟩, ?_⟩
  · exact (hrun.mono fun _ _ _ => trivial).snoc trivial (next_step h₃)
  · exact hall.1 k₁ k₂ k₃ k₄ 125 126 hk₁ (next_step h₁) hr hrun (waits_of_waiting hk₃ hw₃)
      (next_step h₃)
  · obtain ⟨s, l, r, -, hring, hpass, hfound⟩ := hall.2 k₁ k₂ 125 hk₁ (next_step h₁) hr
    exact ⟨k₁, s, l, r, hk₁, hring, hpass, hfound⟩

end Process
