import Manos.Lib.Removals
import Manos.Process.Queues

/-!
# Kernels with other links

While a process is taken off a wait queue by code that is interrupted, the links of the queues are
not those of a list.  A step that does not touch what the interrupted code is about to store has the
same effect on the kernel in which the stores have been made.
-/

namespace Process

open Exec Links

variable {k k' k₁ : Kernel} {e : Event} {p q r : ProcId} {l f : List ProcId} {V : Links WNode}
variable {c : ProcId → Option (ProcId × UnlinkPoint WNode)}

/-- The kernel with the links `V` of the wait queues. -/
abbrev Kernel.settled (V : Links WNode) (k : Kernel) : Kernel := k.setWaits fun _ => V

theorem Runs.settled (h : Runs k r) :
  Runs (k.settled V) r
  := ⟨h.rp, h.pendsv, h.switching⟩

theorem Executes.settled (h : Executes k r) :
  Executes (k.settled V) r
  := ⟨h.toRuns.settled, h.ctl⟩

theorem Inv.settled (h : Inv k l f) :
  Inv (k.settled V) l f
  := ⟨h.places.congr rfl rfl rfl rfl, h.table.congr ⟨rfl, rfl, fun _ => rfl, fun _ => rfl⟩,
    h.states.free, h.states.running⟩

/-! ### Waking -/

/-- A text is written whatever the links are. -/
theorem syswrite_settled {fd : Int} (h : syswrite fd k = .done () k') :
  syswrite fd (k.settled V) = .done () (k.settled V)
  := by
  rw [syswrite, bind_done (get_apply k)] at h
  rw [syswrite, bind_done (get_apply _)]
  dsimp only [Kernel.settled, Kernel.setWaits]
  cases hrp : k.rp with
  | null =>
      rw [hrp] at h
      cases h
  | bad => rfl
  | proc r =>
      rw [hrp] at h
      dsimp only at h ⊢
      split_ifs at h ⊢
      · rfl
      · cases hd : (k.procs r).descriptorTable fd.toNat with
        | none => rfl
        | some portal =>
            rw [hd] at h
            dsimp only at h ⊢
            have hf : portal ∉ k.freed := by
              intro hf
              rw [if_pos hf] at h
              cases h
            exact congrFun (if_neg hf) _
      · cases h

theorem report_settled (h : report k = .done () k') :
  report (k.settled V) = .done () (k.settled V)
  := by
  rw [report, bind_done (get_apply k)] at h
  rw [report, bind_done (get_apply _)]
  exact syswrite_settled h

/-- The body of `wakeWaiting` for every process of a list. -/
theorem forM_wakeEntry (l : List ProcId) (k : Kernel) :
  (l.map WNode.nextWaitQ).forM wakeEntry k =
    .done () (k.wakened ((l.map WNode.nextWaitQ).foldl (fun K x => K.unlinkInit x) k.waits) l)
  := by
  induction l generalizing k with
  | nil => simp [Kernel.wakened, pure_apply]
  | cons q l ih =>
      change (wake q >>= fun _ => (l.map WNode.nextWaitQ).forM wakeEntry : K Unit) k = _
      rw [bind_done (wake_apply q k), ih]
      exact congrArg _ (wakened_cons _ q l k)

/-- `wakeWaiting` takes all processes off the queue. -/
theorem wakeWaiting_ring (h : k.waits.Ring (.waitQ p) (l.map .nextWaitQ)) :
  wakeWaiting p k =
    .done () (k.wakened ((l.map WNode.nextWaitQ).foldl (fun K x => K.unlinkInit x) k.waits) l)
  := (wakeWaiting_forM h).1.trans (forM_wakeEntry l k)

/-- A list and its nodes, at which no code has still to store. -/
structure Resting (c : ProcId → Option (ProcId × UnlinkPoint WNode)) (V : Links WNode)
    (p : ProcId) : Prop where
  free : ∀ l : List ProcId, V.Ring (.waitQ p) (l.map .nextWaitQ) →
    ∀ y ∈ WNode.waitQ p :: l.map .nextWaitQ, Free .nextWaitQ c y
  ring : ∃ l : List ProcId, V.Ring (.waitQ p) (l.map .nextWaitQ)

theorem Resting.head (h : Resting c V p) :
  Free .nextWaitQ c (.waitQ p)
  := by
  obtain ⟨l, hr⟩ := h.ring
  exact h.free l hr _ List.mem_cons_self

/-- `wakeWaiting` does the same with the stores made. -/
theorem wakeWaiting_settled (hV : Completed .nextWaitQ c k.waits V) (hp : Resting c V p)
    (h : wakeWaiting p k = .done () k₁) :
  ∃ V', wakeWaiting p (k.settled V) = .done () (k₁.settled V') ∧
    Completed .nextWaitQ c k₁.waits V'
  := by
  obtain ⟨l, hr⟩ := hp.ring
  have hfree := hp.free l hr
  have hring : k.waits.Ring (.waitQ p) (l.map .nextWaitQ) :=
    hr.frame fun y hy => ⟨(hV.sameAt (hfree y hy)).1.symm, (hV.sameAt (hfree y hy)).2.symm⟩
  rw [wakeWaiting_ring hring] at h
  cases h
  exact ⟨_, wakeWaiting_ring (k := k.settled V) hr, hV.unlinkAll hr hfree⟩

/-! ### Signals -/

/-- No code has still to store where the process `q` is put on the queue of `p`. -/
structure Enters (c : ProcId → Option (ProcId × UnlinkPoint WNode)) (k : Kernel) (p q : ProcId) :
    Prop where
  node : Free .nextWaitQ c (.nextWaitQ q)
  head : ∀ j, callNext .nextWaitQ c j (.waitQ p) = none
  first : ∀ j, callPrev .nextWaitQ c j (k.waits.next (.waitQ p)) = none

theorem Enters.addAfter (h : Enters c k p q) (hV : Completed .nextWaitQ c k.waits V) :
  Completed .nextWaitQ c (k.waits.addAfter (.nextWaitQ q) (.waitQ p))
    (V.addAfter (.nextWaitQ q) (.waitQ p))
  := Completed.addAfter hV h.node h.head h.first

/-- What handling the signals of `p` touches is settled. -/
structure Spared (c : ProcId → Option (ProcId × UnlinkPoint WNode)) (V : Links WNode) (k : Kernel)
    (p : ProcId) : Prop where
  wakes : (k.procs p).handled = some sigAbort ∨ (k.procs p).handled = some sigStop → Resting c V p
  parent : ∀ q, (k.procs p).handled = some sigContinue → k.procTable (k.procs p).ppid = .proc q →
    Enters c k p q

/-- The case `SigContinue`, when the parent is in the table. -/
theorem processContinue_apply (hp : k.procTable (k.procs p).ppid = .proc q) :
  processContinue p k = .done ()
    (((k.setProc p fun x => { x with state := .ready }).setWaits
      (Links.addAfter (.nextWaitQ q) (.waitQ p))).setProc q
        fun x => { x with state := .waiting, cause := .continued })
  := by
  have hd : deref ((k.setProc p fun x => { x with state := .ready }).procTable
      ((k.setProc p fun x => { x with state := .ready }).procs p).ppid) = pure q := by
    rw [Kernel.setProc_self]
    change deref (k.procTable (k.procs p).ppid) = _
    rw [hp]
    rfl
  change (deref _ >>= _ : K Unit) _ = _
  rw [hd]
  rfl

theorem handleSignals_settled (hV : Completed .nextWaitQ c k.waits V) (hc : Spared c V k p)
    (h : handleSignals p k = .done () k₁) :
  ∃ V', handleSignals p (k.settled V) = .done () (k₁.settled V') ∧
    Completed .nextWaitQ c k₁.waits V'
  := by
  rw [handleSignals, bind_done (get_apply k)] at h
  rw [handleSignals, bind_done (get_apply _)]
  change ∃ V', (if (k.procs p).Pending sigAbort then processAbort p
    else if (k.procs p).Pending sigStop then processStop p
    else if (k.procs p).Pending sigContinue then processContinue p
    else Exec.when ((k.procs p).Pending sigAlarm) (setState p .ready) : K Unit)
      (k.settled V) = _ ∧ _
  by_cases ha : (k.procs p).Pending sigAbort
  · have hs : (k.procs p).handled = some sigAbort := by
      rw [Proc.handled, if_pos ha]
    rw [if_pos ha] at h ⊢
    rw [processAbort, bind_eq_done_iff] at h
    obtain ⟨_, k₀, hreport, h⟩ := h
    obtain rfl := report_done hreport
    rw [bind_eq_done_iff] at h
    obtain ⟨_, k₂, hw, h⟩ := h
    obtain ⟨V', hw', hV'⟩ := wakeWaiting_settled hV (hc.wakes (.inl hs)) hw
    cases h
    exact ⟨V', (bind_done (report_settled hreport)).trans (bind_done hw'), hV'⟩
  rw [if_neg ha] at h ⊢
  by_cases hst : (k.procs p).Pending sigStop
  · have hs : (k.procs p).handled = some sigStop := by
      rw [Proc.handled, if_neg ha, if_pos hst]
    rw [if_pos hst] at h ⊢
    rw [processStop, bind_eq_done_iff] at h
    obtain ⟨_, k₀, hreport, h⟩ := h
    obtain rfl := report_done hreport
    rw [bind_eq_done_iff] at h
    obtain ⟨_, k₂, hw, h⟩ := h
    obtain ⟨V', hw', hV'⟩ := wakeWaiting_settled hV (hc.wakes (.inr hs)) hw
    cases h
    exact ⟨Links.init (.waitQ p) V', (bind_done (report_settled hreport)).trans (bind_done hw'),
      hV'.init (hc.wakes (.inr hs)).head⟩
  rw [if_neg hst] at h ⊢
  by_cases hco : (k.procs p).Pending sigContinue
  · have hs : (k.procs p).handled = some sigContinue := by
      rw [Proc.handled, if_neg ha, if_neg hst, if_pos hco]
    rw [if_pos hco] at h ⊢
    obtain ⟨parent, hp, rfl⟩ := processContinue_done h
    refine ⟨V.addAfter (.nextWaitQ parent) (.waitQ p), ?_, (hc.parent parent hs hp).addAfter hV⟩
    exact processContinue_apply (k := k.settled V) hp
  rw [if_neg hco] at h ⊢
  by_cases hl : (k.procs p).Pending sigAlarm
  · rw [when_pos hl] at h ⊢
    cases h
    exact ⟨V, rfl, hV⟩
  · rw [when_neg hl] at h ⊢
    cases h
    exact ⟨V, rfl, hV⟩

/-! ### Steps -/

/-- What the step touches is settled, and it is not one of the first two of an exit. -/
structure Clear (c : ProcId → Option (ProcId × UnlinkPoint WNode)) (V : Links WNode) (k : Kernel)
    (e : Event) : Prop where
  exit : e = .exit → ∀ r, Runs k r → (k.procs r).ctl ≠ .user ∧ (k.procs r).ctl ≠ .unlink
  spawn : ∀ p, Spawns k e p → Free .nextWaitQ c (.waitQ p) ∧ Free .nextWaitQ c (.nextWaitQ p)
  join : ∀ pid p r, e = .waitpid pid → k.procTable pid = .proc p → Executes k r → Enters c k p r
  signals : ∀ p, Handles k e p → Spared c V k p
  recycle : ∀ p, Recycles k e p → Free .nextWaitQ c (.waitQ p) ∧ Free .nextWaitQ c (.nextWaitQ p)

theorem Spared.paused (h : Spared c V k p) :
  Spared c V (k.paused p) p
  := by
  obtain ⟨hhandled, hppid⟩ := k.paused_same p
  have hwaits := k.paused_waits p
  constructor
  · rw [hhandled]
    exact h.wakes
  · rw [hhandled, hppid, (paused_still p k).procTable]
    intro q hs hp
    obtain ⟨hnode, hhead, hfirst⟩ := h.parent q hs hp
    exact ⟨hnode, hhead, by rwa [hwaits]⟩

theorem Kernel.paused_settled (p : ProcId) (k : Kernel) :
  (k.settled V).paused p = (k.paused p).settled V
  := by
  rw [Kernel.paused, Kernel.paused]
  change (if (k.procs p).state = .running then _ else _) = _
  split
  · rfl
  · rfl

/-- The step has the same effect on the kernel in which the stores have been made. -/
theorem Effect.settled (he : Effect k e k') (hV : Completed .nextWaitQ c k.waits V)
    (hx : Clear c V k e) :
  ∃ V', Effect (k.settled V) e (k'.settled V') ∧ Completed .nextWaitQ c k'.waits V'
  := by
  cases he with
  | @exec p r tty hr hf h₀ ht =>
      obtain ⟨hhead, hnode⟩ := hx.spawn p ⟨tty, rfl, hf⟩
      exact ⟨(V.init (WNode.waitQ p)).init (.nextWaitQ p),
        .exec (k := k.settled V) hr.settled hf h₀ ht, (hV.init hhead).init hnode⟩
  | @execOpen p r tty fd hr hf h₀ ht hd =>
      obtain ⟨hhead, hnode⟩ := hx.spawn p ⟨tty, rfl, hf⟩
      exact ⟨(V.init (WNode.waitQ p)).init (.nextWaitQ p),
        .execOpen (k := k.settled V) hr.settled hf h₀ ht hd, (hV.init hhead).init hnode⟩
  | @waitpid p r pid hr h₀ h₁ ha hp =>
      have hp' := hx.join pid p r rfl hp hr
      have ha' : V.next (.nextWaitQ r) = .nextWaitQ r := (hV.sameAt hp'.node).1.trans ha
      exact ⟨_, .waitpid (k := k.settled V) hr.settled h₀ h₁ ha' hp, hp'.addAfter hV⟩
  | exitWake hr hu => exact absurd hu (hx.exit rfl _ hr).1
  | exitUnlink hr hl => exact absurd hl (hx.exit rfl _ hr).2
  | preempt hr hsw hh =>
      have hs := (hx.signals _ (.inl ⟨rfl, hr⟩)).paused
      rw [← k.paused_waits _] at hV
      obtain ⟨V', hh', hV'⟩ := handleSignals_settled hV hs hh
      rw [← Kernel.paused_settled] at hh'
      exact ⟨V', .preempt (k := k.settled V) hr hsw hh', hV'⟩
  | recycle hr hs hd =>
      obtain ⟨hhead, hnode⟩ := hx.recycle _ ⟨rfl, hr, ⟨_, hs⟩, hd⟩
      exact ⟨_, .recycle (k := k.settled V) hr hs hd, (hV.init hhead).init hnode⟩
  | skip hr hs hd hh hn =>
      have hspared := hx.signals _ (.inr ⟨rfl, hr, ⟨_, hs⟩, hd⟩)
      obtain ⟨V', hh', hV'⟩ := handleSignals_settled hV hspared hh
      exact ⟨V', .skip (k := k.settled V) hr hs hd hh' hn, hV'⟩
  | run hr hs hd hh hn =>
      have hspared := hx.signals _ (.inr ⟨rfl, hr, ⟨_, hs⟩, hd⟩)
      obtain ⟨V', hh', hV'⟩ := handleSignals_settled hV hspared hh
      exact ⟨V', .run (k := k.settled V) hr hs hd hh' hn, hV'⟩
  | sleep hr hd => exact ⟨V, .sleep hr.settled hd, hV⟩
  | sleepNone hr => exact ⟨V, .sleepNone hr.settled, hV⟩
  | waitpidNone hr hp => exact ⟨V, .waitpidNone hr.settled hp, hV⟩
  | openFile hr hd => exact ⟨V, .openFile hr.settled hd, hV⟩
  | openFileNone hr => exact ⟨V, .openFileNone hr.settled, hV⟩
  | closeFile hr hd => exact ⟨V, .closeFile hr.settled hd, hV⟩
  | closeFileNone hr => exact ⟨V, .closeFileNone hr.settled, hV⟩
  | closing hr hc => exact ⟨V, .closing hr.settled hc, hV⟩
  | armed hr hc hd => exact ⟨V, .armed hr.settled hc hd, hV⟩
  | armedNone hr hc => exact ⟨V, .armedNone hr.settled hc, hV⟩
  | disarming hr hc => exact ⟨V, .disarming hr.settled hc, hV⟩
  | asleep hr hc => exact ⟨V, .asleep hr.settled hc, hV⟩
  | resumeNone hr hc => exact ⟨V, .resumeNone hr.settled hc, hV⟩
  | mask hr => exact ⟨V, .mask hr.settled, hV⟩
  | block hr => exact ⟨V, .block hr.settled, hV⟩
  | unblock hr => exact ⟨V, .unblock hr.settled, hV⟩
  | exitFree hr hc hi => exact ⟨V, .exitFree hr.settled hc hi, hV⟩
  | exitDead hr hc hi => exact ⟨V, .exitDead hr.settled hc hi, hV⟩
  | exitYield hr hc => exact ⟨V, .exitYield hr.settled hc, hV⟩
  | exitNone hr hc => exact ⟨V, .exitNone hr.settled hc, hV⟩
  | post hs h₀ h₁ hp => exact ⟨V, .post hs h₀ h₁ hp, hV⟩
  | postNone hs hp => exact ⟨V, .postNone hs hp, hV⟩
  | alarms hs => exact ⟨V, .alarms hs, hV⟩
  | tick hs => exact ⟨V, .tick hs, hV⟩
  | preemptNone hr hsw => exact ⟨V, .preemptNone hr hsw, hV⟩
  | leave hr hsw => exact ⟨V, .leave hr hsw, hV⟩
  | leaveNone hr hsw => exact ⟨V, .leaveNone hr hsw, hV⟩
  | start hr hs hn => exact ⟨V, .start hr hs hn, hV⟩
  | idle hr hs hn => exact ⟨V, .idle hr hs hn, hV⟩
  | stop hr hs => exact ⟨V, .stop hr hs, hV⟩

end Process
