import Manos.Process.Code

/-!
# What the functions of the kernel do

For every function the kernels it may lead to, when it returns.  The invariants of the
later modules are derived from these facts, not from the code.
-/

namespace Process

open Exec

variable {k k' : Kernel} {p q r : ProcId}

/-! ### Changing a process -/

@[simp]
theorem Kernel.setProc_self (p : ProcId) (f : Proc → Proc) (k : Kernel) :
  (k.setProc p f).procs p = f (k.procs p)
  := Function.update_self _ _ _

theorem Kernel.setProc_of_ne (h : q ≠ p) (f : Proc → Proc) (k : Kernel) :
  (k.setProc p f).procs q = k.procs q
  := Function.update_of_ne h _ _

@[simp]
theorem Kernel.setWaits_procs (f : Links WNode → Links WNode) (k : Kernel) :
  (k.setWaits f).procs = k.procs
  := rfl

/-- A field that `f` does not change is the same in all processes. -/
theorem Kernel.setProc_field {γ : Type} (g : Proc → γ) {f : Proc → Proc}
    (hf : g (f (k.procs p)) = g (k.procs p)) (q : ProcId) :
  g ((k.setProc p f).procs q) = g (k.procs q)
  := by
  by_cases hq : q = p
  · rw [hq, Kernel.setProc_self, hf]
  · rw [Kernel.setProc_of_ne hq]

/-! ### Waking -/

/-- The kernel `k'` is `k` with some processes made ready, whose nodes are in the set `S`. -/
def Woken (S : WNode → Prop) (k k' : Kernel) : Prop :=
  ∃ waits procs, k' = { k with waits := waits, procs := procs } ∧
    ∀ q, procs q = k.procs q ∨
      (S (.nextWaitQ q) ∧ procs q = { k.procs q with state := .ready })

theorem Woken.refl (S : WNode → Prop) (k : Kernel) :
  Woken S k k
  := by
  refine ⟨k.waits, k.procs, rfl, ?_⟩
  intro q
  left
  rfl

/-- To wake one process first. -/
theorem Woken.head {S : WNode → Prop} {waits : Links WNode} (hq : S (.nextWaitQ q))
    (h : Woken S ((k.setWaits fun _ => waits).setProc q fun p => { p with state := .ready })
      k') :
  Woken S k k'
  := by
  obtain ⟨waits, procs, rfl, hprocs⟩ := h
  refine ⟨waits, procs, rfl, ?_⟩
  intro p
  have hp := hprocs p
  by_cases hpq : p = q
  · subst hpq
    rw [Kernel.setProc_self] at hp
    right
    refine ⟨hq, ?_⟩
    rcases hp with hp | ⟨-, hp⟩
    · exact hp
    · exact hp
  · rw [Kernel.setProc_of_ne hpq] at hp
    exact hp

/-- What `wakeWaiting` does to the process `q`, in one turn of its loop. -/
theorem wake_apply (q : ProcId) (k : Kernel) :
  wake q k = .done () ((k.setWaits fun _ => k.waits.unlinkInit (.nextWaitQ q)).setProc q
    fun p => { p with state := .ready })
  := rfl

/-- The loop of `wakeWaiting` makes only such processes ready that it finds by following the
links. -/
theorem wakeLoop_woken {S : WNode → Prop} {n : Nat} {pos save : WNode}
    (h : wakeLoop p n pos save k = .done () k') (hS : ∀ a, S a → S (k.waits.next a))
    (hpos : S pos) (hsave : pos ≠ .waitQ p → S save) :
  Woken S k k'
  := by
  induction n generalizing pos save k with
  | zero => cases h
  | succ n ih =>
      rw [wakeLoop.eq_def] at h
      dsimp only at h
      split at h
      · cases h
        apply Woken.refl
      · rename_i hne
        cases pos with
        | null => cases h
        | waitQ q => cases h
        | nextWaitQ q =>
            apply Woken.head hpos
            apply ih h
            · exact Links.closed_unlinkInit hS hpos
            · exact hsave hne
            · intro hs
              rw [if_neg hs]
              apply Links.closed_unlinkInit hS hpos
              exact hsave hne

/-- The nodes that `wakeWaiting(p)` may come to. -/
def Kernel.OnQueue (k : Kernel) (p : ProcId) : WNode → Prop := k.waits.Reaches (.waitQ p)

/-- `wakeWaiting(p)` makes only such processes ready that it finds by following the links. -/
theorem wakeWaiting_woken (h : wakeWaiting p k = .done () k') :
  Woken (k.OnQueue p) k k'
  := by
  have hS : ∀ a, k.OnQueue p a → k.OnQueue p (k.waits.next a) := by
    intro a ha
    exact Relation.ReflTransGen.tail ha rfl
  have hfirst : k.OnQueue p (k.waits.next (.waitQ p)) := hS _ Relation.ReflTransGen.refl
  rw [wakeWaiting, bind_done (get_apply k)] at h
  split at h
  · cases h
    apply Woken.refl
  · apply wakeLoop_woken h hS hfirst
    intro _
    exact hS _ hfirst

/-! ### Signals -/

/-- The signal that `processSignals` handles. -/
def Proc.handled (q : Proc) : Option (BitVec 32) :=
  if q.Pending sigAbort then some sigAbort
  else if q.Pending sigStop then some sigStop
  else if q.Pending sigContinue then some sigContinue
  else if q.Pending sigAlarm then some sigAlarm
  else none

/-- The portals of the process `p`. -/
def Kernel.portals (p : ProcId) (k : Kernel) : List Nat :=
  (List.range maxFd).filterMap (k.procs p).descriptorTable

/-- What the cases of `processSignals(p)` may lead to. -/
inductive Handled (k : Kernel) (p : ProcId) : Kernel → Prop where
  | abort {k₁ : Kernel} (hs : (k.procs p).handled = some sigAbort)
      (hw : wakeWaiting p k = .done () k₁) :
      Handled k p
        (({ k₁ with freed := k₁.freed ++ k₁.portals p } : Kernel).setProc p
          fun q => { q with state := .dead })
  | stop {k₁ : Kernel} (hs : (k.procs p).handled = some sigStop)
      (hw : wakeWaiting p k = .done () k₁) :
      Handled k p
        ((k₁.setWaits (Links.init (.waitQ p))).setProc p fun q => { q with state := .stopped })
  | continued {parent : ProcId} (hs : (k.procs p).handled = some sigContinue)
      (hp : k.procTable (k.procs p).ppid = .proc parent) :
      Handled k p
        (((k.setProc p fun q => { q with state := .ready }).setWaits
          (Links.addAfter (.nextWaitQ parent) (.waitQ p))).setProc parent
            fun q => { q with state := .waiting, cause := .continued })
  | alarm (hs : (k.procs p).handled = some sigAlarm) :
      Handled k p (k.setProc p fun q => { q with state := .ready })
  | none (hs : (k.procs p).handled = none) : Handled k p k

theorem deref_eq_done {x : Slot} (h : deref x k = .done p k') :
  x = .proc p ∧ k' = k
  := by
  cases x with
  | null => cases h
  | junk => cases h
  | proc q =>
      cases h
      exact ⟨rfl, rfl⟩

/-- A text that is written changes nothing that is modelled. -/
theorem syswrite_done {fd : Int} (h : syswrite fd k = .done () k') :
  k' = k
  := by
  rw [syswrite, bind_done (get_apply k)] at h
  cases hrp : k.rp with
  | null =>
      rw [hrp] at h
      cases h
  | bad =>
      rw [hrp] at h
      cases h
      rfl
  | proc r =>
      rw [hrp] at h
      dsimp only at h
      split_ifs at h
      · cases h
        rfl
      · cases hd : (k.procs r).descriptorTable fd.toNat with
        | none =>
            rw [hd] at h
            cases h
            rfl
        | some portal =>
            rw [hd] at h
            dsimp only at h
            split_ifs at h
            · cases h
            · cases h
              rfl
      · cases h

theorem report_done (h : report k = .done () k') :
  k' = k
  := by
  rw [report, bind_done (get_apply k)] at h
  exact syswrite_done h

theorem processAbort_done (h : processAbort p k = .done () k') :
  ∃ k₁, wakeWaiting p k = .done () k₁ ∧
    k' = ({ k₁ with freed := k₁.freed ++ k₁.portals p } : Kernel).setProc p
      fun q => { q with state := .dead }
  := by
  rw [processAbort, bind_eq_done_iff] at h
  obtain ⟨_, k₀, hreport, h⟩ := h
  obtain rfl := report_done hreport
  rw [bind_eq_done_iff] at h
  obtain ⟨_, k₁, hw, h⟩ := h
  cases h
  exact ⟨k₁, hw, rfl⟩

theorem processStop_done (h : processStop p k = .done () k') :
  ∃ k₁, wakeWaiting p k = .done () k₁ ∧
    k' = (k₁.setWaits (Links.init (.waitQ p))).setProc p fun q => { q with state := .stopped }
  := by
  rw [processStop, bind_eq_done_iff] at h
  obtain ⟨_, k₀, hreport, h⟩ := h
  obtain rfl := report_done hreport
  rw [bind_eq_done_iff] at h
  obtain ⟨_, k₁, hw, h⟩ := h
  cases h
  exact ⟨k₁, hw, rfl⟩

theorem processContinue_done (h : processContinue p k = .done () k') :
  ∃ parent, k.procTable (k.procs p).ppid = .proc parent ∧
    k' = ((k.setProc p fun q => { q with state := .ready }).setWaits
      (Links.addAfter (.nextWaitQ parent) (.waitQ p))).setProc parent
        fun q => { q with state := .waiting, cause := .continued }
  := by
  rw [processContinue, bind_eq_done_iff] at h
  obtain ⟨_, k₁, hk₁, h⟩ := h
  cases hk₁
  rw [bind_done (get_apply _), bind_eq_done_iff] at h
  obtain ⟨parent, k₂, hd, h⟩ := h
  obtain ⟨hp, rfl⟩ := deref_eq_done hd
  rw [Kernel.setProc_self] at hp
  cases h
  exact ⟨parent, hp, rfl⟩

/-- What the cases of `processSignals` do. -/
theorem handleSignals_handled (h : handleSignals p k = .done () k') :
  Handled k p k'
  := by
  rw [handleSignals, bind_done (get_apply k)] at h
  by_cases ha : (k.procs p).Pending sigAbort
  · rw [if_pos ha] at h
    obtain ⟨k₁, hw, rfl⟩ := processAbort_done h
    apply Handled.abort _ hw
    rw [Proc.handled, if_pos ha]
  rw [if_neg ha] at h
  by_cases hs : (k.procs p).Pending sigStop
  · rw [if_pos hs] at h
    obtain ⟨k₁, hw, rfl⟩ := processStop_done h
    apply Handled.stop _ hw
    rw [Proc.handled, if_neg ha, if_pos hs]
  rw [if_neg hs] at h
  by_cases hc : (k.procs p).Pending sigContinue
  · rw [if_pos hc] at h
    obtain ⟨parent, hp, rfl⟩ := processContinue_done h
    apply Handled.continued _ hp
    rw [Proc.handled, if_neg ha, if_neg hs, if_pos hc]
  rw [if_neg hc] at h
  by_cases hl : (k.procs p).Pending sigAlarm
  · rw [when_pos hl] at h
    cases h
    apply Handled.alarm
    rw [Proc.handled, if_neg ha, if_neg hs, if_neg hc, if_pos hl]
  · rw [when_neg hl] at h
    cases h
    apply Handled.none
    rw [Proc.handled, if_neg ha, if_neg hs, if_neg hc, if_neg hl]

/-- The pending signals of `p` are reset. -/
def Kernel.reset (p : ProcId) (k : Kernel) : Kernel :=
  k.setProc p fun q => { q with sigPending := 0 }

theorem processSignals_done (h : processSignals p k = .done () k') :
  ∃ k₁, handleSignals p k = .done () k₁ ∧ k' = k₁.reset p
  := by
  rw [processSignals, bind_eq_done_iff] at h
  obtain ⟨_, k₁, hk₁, h⟩ := h
  cases h
  exact ⟨k₁, hk₁, rfl⟩

/-- A signal is posted to the process with the pid, if it is one. -/
theorem syspostsignal_done {pid : Int} {signal : BitVec 32}
    (h : syspostsignal pid signal k = .done () k') :
  ((pid < 0 ∨ pid > maxProc) ∧ k' = k) ∨
    ∃ p, 0 ≤ pid ∧ pid ≤ maxProc ∧ k.procTable pid = .proc p ∧
      k' = k.setProc p fun q => { q with sigPending := q.sigPending ||| (signal &&& ~~~ q.sigMask) }
  := by
  rw [syspostsignal] at h
  split at h
  · rename_i hpid
    left
    cases h
    exact ⟨hpid, rfl⟩
  · rename_i hpid
    right
    rw [bind_done (get_apply k), bind_eq_done_iff] at h
    obtain ⟨p, k₁, hd, h⟩ := h
    obtain ⟨hp, rfl⟩ := deref_eq_done hd
    cases h
    refine ⟨p, ?_, ?_, hp, rfl⟩
    · omega
    · omega

/-! ### Process structures -/

/-- The pid of the process that is made of the structure `p`. -/
def Kernel.pidFor (p : ProcId) (k : Kernel) : Int :=
  if (k.procs p).pid = 0 then k.nextPid + 1 else (k.procs p).pid

/-- The kernel after a process was made of the structure `p`. -/
def Kernel.taken (p : ProcId) (k : Kernel) : Kernel :=
  { k with
    procs := Function.update k.procs p
      { k.procs p with
        state := .spawning
        pid := k.pidFor p
        ppid := k.rp.pid
          (Function.update k.procs p { k.procs p with state := .spawning, pid := k.pidFor p })
        pgrp := some k.allocated
        sigPending := 0
        sigMask := 0 }
    waits := (k.waits.init (.waitQ p)).init (.nextWaitQ p)
    runQ := k.runQ.init (.proc p)
    freelist := (k.freelist.unlink .null (.proc p)).init (.proc p)
    nextPid := if (k.procs p).pid = 0 then k.nextPid + 1 else k.nextPid
    groups := Function.update k.groups k.allocated (some ⟨1, k.pidFor p⟩)
    allocated := k.allocated + 1
    procTable := Function.update k.procTable (k.pidFor p) (.proc p) }

theorem takeFree_done (h : takeFree k = .done p k') :
  k.freelist.next .head = .proc p ∧ k' = k.setFreelist (Links.unlink .null (.proc p))
  := by
  rw [takeFree, bind_done (get_apply k)] at h
  cases hn : k.freelist.next .head with
  | null =>
      rw [hn] at h
      cases h
  | head =>
      rw [hn] at h
      cases h
  | proc q =>
      rw [hn] at h
      cases h
      exact ⟨rfl, rfl⟩

/-- What `newProc` does, if the first structure of the free list is `p`. -/
theorem newProc_apply (h : k.freelist.next .head = .proc p) (h₀ : k.pidFor p ≠ 0) :
  newProc k = if k.procTable (k.pidFor p) = .null then .done p (k.taken p)
    else .stop (.assertion "newProc() existing proc in table")
      { k.taken p with procTable := k.procTable }
  := by
  by_cases hp : (k.procs p).pid = 0
  · have hpid : k.pidFor p = k.nextPid + 1 := if_pos hp
    rw [hpid] at h₀
    by_cases hs : k.procTable (k.nextPid + 1) = .null
    · simp [newProc, takeFree, bind_apply, h, setState, update, initWaits, assignPid,
        newProcGroup, hp, hs, h₀, Kernel.setProc, Kernel.setFreelist, Kernel.setWaits,
        Kernel.setRunQ, Kernel.setSlot, Kernel.taken, hpid]
    · simp [newProc, takeFree, bind_apply, h, setState, update, initWaits, assignPid,
        newProcGroup, hp, hs, h₀, Kernel.setProc, Kernel.setFreelist, Kernel.setWaits,
        Kernel.setRunQ, Kernel.taken, hpid, assert_apply]
  · have hpid : k.pidFor p = (k.procs p).pid := if_neg hp
    by_cases hs : k.procTable (k.procs p).pid = .null
    · simp [newProc, takeFree, bind_apply, h, setState, update, initWaits, assignPid,
        newProcGroup, hp, hs, Kernel.setProc, Kernel.setFreelist, Kernel.setWaits,
        Kernel.setRunQ, Kernel.setSlot, Kernel.taken, hpid]
    · simp [newProc, takeFree, bind_apply, h, setState, update, initWaits, assignPid,
        newProcGroup, hp, hs, Kernel.setProc, Kernel.setFreelist, Kernel.setWaits,
        Kernel.setRunQ, Kernel.taken, hpid, assert_apply]

/-- A process that has no pid gets one that is not 0. -/
theorem newProc_pid (h : newProc k = .done p k') (hq : k.freelist.next .head = .proc q) :
  k.pidFor q ≠ 0
  := by
  intro h₀
  have hp : (k.procs q).pid = 0 := by
    rw [Kernel.pidFor] at h₀
    split at h₀
    · assumption
    · exact h₀
  rw [Kernel.pidFor, if_pos hp] at h₀
  simp [newProc, takeFree, bind_apply, hq, setState, update, initWaits, assignPid,
    hp, h₀, Kernel.setProc, Kernel.setFreelist, Kernel.setWaits, Kernel.setRunQ,
    assert_apply] at h

/-- What `newProc` did, if it returned. -/
theorem newProc_done (h : newProc k = .done p k') :
  k.freelist.next .head = .proc p ∧ k.pidFor p ≠ 0 ∧ k.procTable (k.pidFor p) = .null ∧
    k' = k.taken p
  := by
  have hq : ∃ q, k.freelist.next .head = .proc q := by
    rw [newProc, bind_eq_done_iff] at h
    obtain ⟨q, k₁, ht, -⟩ := h
    exact ⟨q, (takeFree_done ht).1⟩
  obtain ⟨q, hq⟩ := hq
  have h₀ := newProc_pid h hq
  rw [newProc_apply hq h₀] at h
  split at h
  · rename_i hs
    cases h
    exact ⟨hq, h₀, hs, rfl⟩
  · cases h

/-- The kernel after the process `p` opened a portal as its descriptor `fd`. -/
def Kernel.opened (p : ProcId) (fd : Nat) (k : Kernel) : Kernel :=
  { k.setProc p fun q =>
      { q with descriptorTable := Function.update q.descriptorTable fd (some k.allocated) } with
    allocated := k.allocated + 1 }

/-- A portal is opened as a descriptor that is not in use. -/
theorem sysopen_done {opens : Bool} {fd : Option Nat} (h : __sysopen p opens k = .done fd k') :
  (fd = none ∧ k' = k) ∨
    ∃ n, fd = some n ∧ (k.procs p).descriptorTable n = none ∧ k' = k.opened p n
  := by
  rw [__sysopen, bind_done (get_apply k)] at h
  cases hn : (List.range maxFd).find? fun fd => (k.procs p).descriptorTable fd = none with
  | none =>
      left
      rw [hn] at h
      cases h
      exact ⟨rfl, rfl⟩
  | some n =>
      have hfree := List.find?_some hn
      rw [hn] at h
      cases opens with
      | false =>
          left
          cases h
          exact ⟨rfl, rfl⟩
      | true =>
          right
          cases h
          exact ⟨n, rfl, of_decide_eq_true hfree, rfl⟩

/-- The process `p` gets its console and is put on the run queue, ready. -/
def Kernel.queued (p : ProcId) (tty : Int) (k : Kernel) : Kernel :=
  (k.setRunQ (Links.addBefore (.proc p) .head)).setProc p
    fun q => { q with tty := tty, ctl := .user, state := .ready }

theorem schedProc_done {tty : Bool} (h : schedProc tty k = .done p k') :
  ∃ k₁, newProc k = .done p k₁ ∧
    (k' = k₁.queued p (-1) ∨
      ∃ n : Nat, (k₁.procs p).descriptorTable n = none ∧ k' = (k₁.opened p n).queued p n)
  := by
  have hqueued : ∀ (t : Int) (k₂ : Kernel), (((k₂.setProc p fun q => { q with tty := t }).setProc p
      fun q => { q with ctl := .user }).setRunQ (Links.addBefore (.proc p) .head)).setProc p
        (fun q => { q with state := .ready }) = k₂.queued p t := by
    intro t k₂
    simp [Kernel.queued, Kernel.setProc, Kernel.setRunQ]
  rw [schedProc, bind_eq_done_iff] at h
  obtain ⟨p', k₁, hnew, h⟩ := h
  rw [bind_eq_done_iff] at h
  obtain ⟨fd, k₂, hopen, h⟩ := h
  cases h
  refine ⟨k₁, hnew, ?_⟩
  rcases sysopen_done hopen with ⟨rfl, rfl⟩ | ⟨n, rfl, hn, rfl⟩
  · left
    exact hqueued (-1) _
  · right
    exact ⟨n, hn, hqueued n _⟩

/-- `schedProc` takes the first process of the free list and opens at most one file for it. -/
theorem schedProc_taken {tty : Bool} (h : schedProc tty k = .done p k') :
  (k.freelist.next .head = .proc p ∧ k.pidFor p ≠ 0 ∧ k.procTable (k.pidFor p) = .null) ∧
    (k' = (k.taken p).queued p (-1) ∨
      ∃ n : Nat, ((k.taken p).procs p).descriptorTable n = none ∧
        k' = ((k.taken p).opened p n).queued p n)
  := by
  obtain ⟨k₁, hnew, hk'⟩ := schedProc_done h
  obtain ⟨hf, h₀, ht, rfl⟩ := newProc_done hnew
  exact ⟨⟨hf, h₀, ht⟩, hk'⟩

/-- `schedProc` leaves the scheduler alone, and frees nothing. -/
theorem schedProc_rest {tty : Bool} (h : schedProc tty k = .done p k') :
  k'.rp = k.rp ∧ k'.scan = k.scan ∧ k'.freed = k.freed
  := by
  rcases (schedProc_taken h).2 with rfl | ⟨n, -, rfl⟩
  · exact ⟨rfl, rfl, rfl⟩
  · exact ⟨rfl, rfl, rfl⟩

/-- `schedProc` leaves the other processes alone. -/
theorem schedProc_procs_of_ne {tty : Bool} (h : schedProc tty k = .done p k') (hq : q ≠ p) :
  k'.procs q = k.procs q
  := by
  rcases (schedProc_taken h).2 with rfl | ⟨n, -, rfl⟩
  · exact (Function.update_of_ne hq _ _).trans (Function.update_of_ne hq _ _)
  · exact ((Function.update_of_ne hq _ _).trans (Function.update_of_ne hq _ _)).trans
      (Function.update_of_ne hq _ _)

/-- The kernel after `recycleProc(p)`. -/
def Kernel.recycled (p : ProcId) (groups : Nat → Option ProcGroup) (k : Kernel) : Kernel :=
  { k with
    procs := Function.update k.procs p
      { k.procs p with
        state := .dead
        descriptorTable := fun _ => none
        sigPending := 0
        sigMask := 0
        pgrp := none
        ppid := 0 }
    waits := (k.waits.init (.waitQ p)).init (.nextWaitQ p)
    runQ := k.runQ.init (.proc p)
    freelist := (k.freelist.init (.proc p)).addBefore (.proc p) .head
    groups := groups
    procTable := Function.update k.procTable (k.procs p).pid .null }

/-- To leave a process group changes nothing but the groups. -/
theorem leaveProcGroup_done {g : Option Nat} (h : leaveProcGroup g k = .done () k') :
  ∃ groups, k' = { k with groups := groups }
  := by
  cases g with
  | none => cases h
  | some g =>
      rw [leaveProcGroup, bind_done (get_apply k)] at h
      cases hg : k.groups g with
      | none =>
          rw [hg] at h
          cases h
      | some grp =>
          rw [hg] at h
          cases h
          exact ⟨_, rfl⟩

theorem recycleProc_done (h : recycleProc p k = .done () k') :
  ∃ groups, k' = k.recycled p groups
  := by
  simp only [recycleProc, initWaits, update, bind_apply, modify_apply, get_apply] at h
  split at h
  · rename_i hleave
    obtain ⟨groups, rfl⟩ := leaveProcGroup_done hleave
    cases h
    use groups
    simp [Kernel.recycled, Kernel.setProc, Kernel.setFreelist, Kernel.setWaits,
      Kernel.setRunQ, Kernel.setSlot]
  · cases h

/-! ### Alarms -/

/-- An alarm of the process `q` has run out. -/
def Kernel.Rings (k : Kernel) (q : ProcId) (l : List Alarm) : Prop :=
  ∃ a ∈ l, a.wakeTime ≤ k.systime ∧ 0 ≤ a.pid ∧ a.pid ≤ maxProc ∧ k.procTable a.pid = .proc q

open Classical in
/-- The kernel after `SigAlarm` was posted for the alarms `l` that have run out. -/
noncomputable def Kernel.rung (l : List Alarm) (k : Kernel) : Kernel :=
  { k with
    procs := fun q =>
      if k.Rings q l then
        { k.procs q with
          sigPending := (k.procs q).sigPending ||| (sigAlarm &&& ~~~ (k.procs q).sigMask) }
      else k.procs q }

theorem Kernel.rung_of_rings {l : List Alarm} (h : k.Rings q l) :
  (k.rung l).procs q = { k.procs q with
    sigPending := (k.procs q).sigPending ||| (sigAlarm &&& ~~~ (k.procs q).sigMask) }
  := if_pos h

theorem Kernel.rung_of_not {l : List Alarm} (h : ¬ k.Rings q l) :
  (k.rung l).procs q = k.procs q
  := if_neg h

/-- Kernels in which the same processes are rung. -/
theorem Kernel.rung_eq {l : List Alarm} (hk : { k' with procs := k.procs } = k)
    (hpos : ∀ q, k.Rings q l → k'.procs q = { k.procs q with
      sigPending := (k.procs q).sigPending ||| (sigAlarm &&& ~~~ (k.procs q).sigMask) })
    (hneg : ∀ q, ¬ k.Rings q l → k'.procs q = k.procs q) :
  k.rung l = k'
  := by
  have hprocs : (k.rung l).procs = k'.procs := by
    funext q
    by_cases hq : k.Rings q l
    · rw [Kernel.rung_of_rings hq, hpos q hq]
    · rw [Kernel.rung_of_not hq, hneg q hq]
  calc k.rung l = { k with procs := (k.rung l).procs } := rfl
    _ = { { k' with procs := k.procs } with procs := k'.procs } := by rw [hprocs, hk]
    _ = k' := rfl

theorem Kernel.rung_nil (k : Kernel) :
  k.rung [] = k
  := by
  apply Kernel.rung_eq rfl
  · rintro q ⟨a, ha, -⟩
    cases ha
  · intro q _
    rfl

/-- An alarm that does not ring changes nothing. -/
theorem Kernel.rung_cons_of_not {a : Alarm} {l : List Alarm}
    (ha : ∀ q, ¬ k.Rings q [a]) :
  k.rung (a :: l) = k.rung l
  := by
  have hiff : ∀ q, k.Rings q (a :: l) → k.Rings q l := by
    rintro q ⟨b, hb, hring⟩
    rcases List.mem_cons.mp hb with rfl | hb
    · exact absurd ⟨b, List.mem_singleton_self b, hring⟩ (ha q)
    · exact ⟨b, hb, hring⟩
  apply Kernel.rung_eq rfl
  · intro q hq
    exact Kernel.rung_of_rings (hiff q hq)
  · intro q hq
    apply Kernel.rung_of_not
    rintro ⟨b, hb, hring⟩
    exact hq ⟨b, List.mem_cons_of_mem _ hb, hring⟩

/-- The signal `SigAlarm` is posted to the process `p`. -/
def Kernel.alarmed (p : ProcId) (k : Kernel) : Kernel :=
  k.setProc p fun q => { q with sigPending := q.sigPending ||| (sigAlarm &&& ~~~ q.sigMask) }

/-- An alarm that rings posts a signal to its process. -/
theorem Kernel.rung_cons {a : Alarm} {l : List Alarm} (ha : k.Rings p [a]) :
  k.rung (a :: l) = (k.alarmed p).rung l
  := by
  obtain ⟨b, hb, hring⟩ := ha
  obtain rfl := List.mem_singleton.mp hb
  have hother : ∀ q, q ≠ p → (k.Rings q (b :: l) ↔ (k.alarmed p).Rings q l) := by
    intro q hq
    constructor
    · rintro ⟨c, hc, hc'⟩
      rcases List.mem_cons.mp hc with rfl | hc
      · have := hring.2.2.2.symm.trans hc'.2.2.2
        exact absurd (Slot.proc.inj this).symm hq
      · exact ⟨c, hc, hc'⟩
    · rintro ⟨c, hc, hc'⟩
      exact ⟨c, List.mem_cons_of_mem _ hc, hc'⟩
  have hself : ((k.alarmed p).rung l).procs p = (k.alarmed p).procs p := by
    by_cases hp : (k.alarmed p).Rings p l
    · rw [Kernel.rung_of_rings hp]
      simp only [Kernel.alarmed, Kernel.setProc_self, BitVec.or_assoc, BitVec.or_self]
    · exact Kernel.rung_of_not hp
  apply Kernel.rung_eq rfl
  · intro q hq
    by_cases hqp : q = p
    · subst hqp
      rw [hself]
      exact Kernel.setProc_self _ _ _
    · rw [Kernel.rung_of_rings ((hother q hqp).mp hq), Kernel.alarmed,
        Kernel.setProc_of_ne hqp]
  · intro q hq
    have hqp : q ≠ p := by
      rintro rfl
      exact hq ⟨b, List.mem_cons_self, hring⟩
    rw [Kernel.rung_of_not (fun h => hq ((hother q hqp).mpr h)), Kernel.alarmed,
      Kernel.setProc_of_ne hqp]

/-- What the loop of `pdbHandler` does. -/
theorem expire_done {l kept : List Alarm} {now : BitVec 64} (hnow : now = k.systime)
    (h : expire now l k = .done kept k') :
  k' = k.rung l ∧ kept = l.filter fun a => ¬ a.wakeTime ≤ now
  := by
  induction l generalizing k kept with
  | nil =>
      cases h
      exact ⟨(Kernel.rung_nil _).symm, rfl⟩
  | cons a l ih =>
      rw [expire] at h
      split at h
      · rename_i ht
        rw [bind_eq_done_iff] at h
        obtain ⟨_, k₁, hpost, h⟩ := h
        rw [List.filter_cons_of_neg (by simpa using ht)]
        rcases syspostsignal_done hpost with ⟨hpid, rfl⟩ | ⟨p, h₀, h₁, hp, rfl⟩
        · rw [Kernel.rung_cons_of_not]
          · exact ih hnow h
          · rintro q ⟨b, hb, -, h₀, h₁, -⟩
            obtain rfl := List.mem_singleton.mp hb
            omega
        · rw [Kernel.rung_cons ⟨a, List.mem_singleton_self a, hnow ▸ ht, h₀, h₁, hp⟩]
          exact ih hnow h
      · rename_i ht
        rw [bind_eq_done_iff] at h
        obtain ⟨kept', k₁, hl, h⟩ := h
        cases h
        rw [List.filter_cons_of_pos (by simpa using ht), Kernel.rung_cons_of_not]
        · obtain ⟨hk, hkept⟩ := ih hnow hl
          exact ⟨hk, by rw [hkept]⟩
        · rintro q ⟨b, hb, hb', -⟩
          obtain rfl := List.mem_singleton.mp hb
          exact ht (hnow ▸ hb')

end Process
