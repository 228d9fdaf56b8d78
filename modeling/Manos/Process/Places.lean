import Mathlib.Data.List.Perm.Basic
import Manos.Process.Trace

/-!
# The place of every process structure

Every process structure is on the free list, on the run queue, or is the running process,
and in only one of these places.
-/

namespace Process

open Exec

variable {k k' k₁ : Kernel} {p q : ProcId} {e : Event} {r f r' f' : List ProcId}

/-! ### What signals leave alone -/

/-- What neither signals nor `wakeWaiting` change. -/
structure Still (k k' : Kernel) : Prop where
  runQ : k'.runQ = k.runQ
  freelist : k'.freelist = k.freelist
  procTable : k'.procTable = k.procTable
  nextPid : k'.nextPid = k.nextPid
  alarms : k'.alarms = k.alarms
  systime : k'.systime = k.systime
  rp : k'.rp = k.rp
  switching : k'.switching = k.switching
  scan : k'.scan = k.scan
  pendsv : k'.pendsv = k.pendsv
  allocated : k'.allocated = k.allocated
  procs : ∀ q, ∃ state cause, k'.procs q = { k.procs q with state := state, cause := cause }

theorem Still.refl (k : Kernel) :
  Still k k
  := by
  refine ⟨rfl, rfl, rfl, rfl, rfl, rfl, rfl, rfl, rfl, rfl, rfl, ?_⟩
  intro q
  exact ⟨_, _, rfl⟩

theorem Still.trans {k₂ : Kernel} (h : Still k k₁) (h' : Still k₁ k₂) :
  Still k k₂
  := by
  refine ⟨h'.runQ.trans h.runQ, h'.freelist.trans h.freelist, h'.procTable.trans h.procTable,
    h'.nextPid.trans h.nextPid, h'.alarms.trans h.alarms, h'.systime.trans h.systime,
    h'.rp.trans h.rp, h'.switching.trans h.switching, h'.scan.trans h.scan,
    h'.pendsv.trans h.pendsv, h'.allocated.trans h.allocated, ?_⟩
  intro q
  obtain ⟨s, c, hq⟩ := h.procs q
  obtain ⟨s', c', hq'⟩ := h'.procs q
  use s', c'
  rw [hq', hq]

/-- A change of the state and the cause of a process. -/
theorem still_setProc (p : ProcId) (k : Kernel) {f : Proc → Proc}
    (hf : ∀ x, ∃ state cause, f x = { x with state := state, cause := cause }) :
  Still k (k.setProc p f)
  := by
  refine ⟨rfl, rfl, rfl, rfl, rfl, rfl, rfl, rfl, rfl, rfl, rfl, ?_⟩
  intro q
  by_cases hq : q = p
  · obtain ⟨s, c, hf⟩ := hf (k.procs p)
    use s, c
    rw [hq, Kernel.setProc_self, hf]
  · rw [Kernel.setProc_of_ne hq]
    exact ⟨_, _, rfl⟩

theorem Woken.still {S : WNode → Prop} (h : Woken S k k') :
  Still k k'
  := by
  obtain ⟨waits, procs, rfl, hprocs⟩ := h
  refine ⟨rfl, rfl, rfl, rfl, rfl, rfl, rfl, rfl, rfl, rfl, rfl, ?_⟩
  intro q
  rcases hprocs q with hq | ⟨-, hq⟩
  · exact ⟨(k.procs q).state, (k.procs q).cause, hq⟩
  · exact ⟨.ready, (k.procs q).cause, hq⟩

theorem Handled.still (h : Handled k p k') :
  Still k k'
  := by
  cases h with
  | abort hs hw =>
      have hstill := (wakeWaiting_woken hw).still
      refine Still.trans ?_ (still_setProc p _ fun x => ⟨_, _, rfl⟩)
      exact ⟨hstill.1, hstill.2, hstill.3, hstill.4, hstill.5, hstill.6, hstill.7, hstill.8,
        hstill.9, hstill.10, hstill.11, hstill.12⟩
  | stop hs hw =>
      have hstill := (wakeWaiting_woken hw).still
      refine Still.trans ?_ (still_setProc p _ fun x => ⟨_, _, rfl⟩)
      exact ⟨hstill.1, hstill.2, hstill.3, hstill.4, hstill.5, hstill.6, hstill.7, hstill.8,
        hstill.9, hstill.10, hstill.11, hstill.12⟩
  | continued hs hp =>
      refine Still.trans ?_ (still_setProc _ _ fun x => ⟨_, _, rfl⟩)
      have hstill := still_setProc p k (f := fun q => { q with state := .ready })
        fun x => ⟨_, _, rfl⟩
      exact ⟨hstill.1, hstill.2, hstill.3, hstill.4, hstill.5, hstill.6, hstill.7, hstill.8,
        hstill.9, hstill.10, hstill.11, hstill.12⟩
  | alarm hs => exact still_setProc p k fun x => ⟨_, _, rfl⟩
  | none hs => exact Still.refl k

theorem paused_still (p : ProcId) (k : Kernel) :
  Still k (k.paused p)
  := by
  rw [Kernel.paused]
  split
  · exact still_setProc p k fun x => ⟨_, _, rfl⟩
  · exact Still.refl k

/-- The signals of a process are handled. -/
theorem handleSignals_still (h : handleSignals p k = .done () k') :
  Still k k'
  := (handleSignals_handled h).still

/-! ### The invariant -/

/-- The running process, if there is one. -/
def Rp.toList : Rp → List ProcId
  | null => []
  | bad => []
  | proc p => [p]

/-- The run queue holds the processes `r` and the free list the processes `f`, and they and
the running process are all processes, each once. -/
structure Places (k : Kernel) (r f : List ProcId) : Prop where
  runQ : k.runQ.Ring .head (r.map .proc)
  freelist : k.freelist.Ring .head (f.map .proc)
  perm : (r ++ f ++ k.rp.toList).Perm (List.finRange maxProc)
  scan : ∀ pos save, k.scan = some (pos, save) → k.rp = .bad ∧
    (pos = .head ∨ ∃ p ∈ r, pos = .proc p ∧ save = k.runQ.next (.proc p))

/-- The structures that changed their place in a step. -/
inductive Moves (k k' : Kernel) : List ProcId → List ProcId → List ProcId → List ProcId → Prop where
  | none {r f : List ProcId} (h : k'.rp.toList = k.rp.toList) : Moves k k' r f r f
  | spawn {p : ProcId} {r f : List ProcId} (h : k'.rp = k.rp) : Moves k k' r (p :: f) (r ++ [p]) f
  | leave {p : ProcId} {r f : List ProcId} (h : k.rp = .proc p) (h' : k'.rp = .bad) :
      Moves k k' r f (r ++ [p]) f
  | recycle {p : ProcId} {r₁ r₂ f : List ProcId} (h : k.rp = .bad) (h' : k'.rp = .bad)
      (hd : (k.procs p).state = .dead) : Moves k k' (r₁ ++ p :: r₂) f (r₁ ++ r₂) (f ++ [p])
  | run {p : ProcId} {r₁ r₂ f : List ProcId} (h : k.rp = .bad) (h' : k'.rp = .proc p) :
      Moves k k' (r₁ ++ p :: r₂) f (r₁ ++ r₂) f

theorem Places.congr (h : Places k r f) (hq : k'.runQ = k.runQ) (hf : k'.freelist = k.freelist)
    (hr : k'.rp = k.rp) (hs : k'.scan = k.scan) :
  Places k' r f
  := by
  refine ⟨hq ▸ h.runQ, hf ▸ h.freelist, hr ▸ h.perm, ?_⟩
  rw [hs, hr, hq]
  exact h.scan

theorem Places.nodup (h : Places k r f) :
  (r ++ f ++ k.rp.toList).Nodup
  := h.perm.nodup_iff.mpr (List.nodup_finRange maxProc)

theorem Places.mem (h : Places k r f) (p : ProcId) :
  p ∈ r ∨ p ∈ f ∨ k.rp = .proc p
  := by
  have hp := h.perm.mem_iff.mpr (List.mem_finRange p)
  rw [List.mem_append, List.mem_append] at hp
  rcases hp with (hp | hp) | hp
  · exact .inl hp
  · exact .inr (.inl hp)
  · right
    right
    cases hrp : k.rp with
    | null => simp [hrp, Rp.toList] at hp
    | bad => simp [hrp, Rp.toList] at hp
    | proc q =>
        simp only [hrp, Rp.toList, List.mem_singleton] at hp
        rw [hp]

theorem Places.notMem_runQ (h : Places k r f) (hp : p ∈ f) :
  p ∉ r
  := by
  intro hr
  have hn := h.nodup
  rw [List.append_assoc, List.nodup_append] at hn
  exact hn.2.2 p hr p (List.mem_append_left _ hp) rfl

theorem Places.notMem_of_rp (h : Places k r f) (hp : k.rp = .proc p) :
  p ∉ r ∧ p ∉ f
  := by
  have hn := h.nodup
  rw [List.nodup_append] at hn
  have hmem : p ∈ k.rp.toList := by
    rw [hp]
    exact List.mem_singleton_self p
  constructor
  · intro hr
    exact hn.2.2 p (List.mem_append_left _ hr) p hmem rfl
  · intro hf
    exact hn.2.2 p (List.mem_append_right _ hf) p hmem rfl

/-- There is no scan while a process runs. -/
theorem Places.scan_none (h : Places k r f) (hp : k.rp = .proc p) :
  k.scan = none
  := by
  cases hs : k.scan with
  | none => rfl
  | some x =>
      have hbad := (h.scan x.1 x.2 hs).1
      rw [hp] at hbad
      cases hbad

/-- A process is put at the end of a list that it is not on. -/
theorem ring_addBefore {K : Links QNode} {l : List ProcId} (hr : K.Ring .head (l.map .proc))
    (hp : p ∉ l) :
  (K.addBefore (.proc p) .head).Ring .head ((l ++ [p]).map .proc)
  := by
  rw [List.map_append]
  apply hr.addBefore
  simp only [List.mem_cons, reduceCtorEq, List.mem_map, QNode.proc.injEq, exists_eq_right,
    false_or]
  exact hp

/-- A process that is the next of the head of a list is the first one on it. -/
theorem ring_first {K : Links QNode} {l : List ProcId} (hr : K.Ring .head (l.map .proc))
    (hp : K.next .head = .proc p) :
  ∃ l', l = p :: l'
  := by
  rw [hr.neighbours_head.1] at hp
  cases l with
  | nil => cases hp
  | cons a l =>
      cases hp
      exact ⟨l, rfl⟩

/-! ### Steps that move processes -/

theorem Places.spawn (h : Places k r f) (hs : k.scan = none) (tty : Int)
    (hp : k.freelist.next .head = .proc p) :
  ∃ f', f = p :: f' ∧ Places ((k.taken p).queued p tty) (r ++ [p]) f'
  := by
  obtain ⟨f', rfl⟩ := ring_first h.freelist hp
  have hpr : p ∉ r := h.notMem_runQ List.mem_cons_self
  have hpf : p ∉ f' := by
    have hn := h.nodup
    rw [List.append_assoc, List.nodup_append, List.cons_append, List.nodup_cons] at hn
    exact fun hmem => hn.2.1.1 (List.mem_append_left _ hmem)
  refine ⟨f', rfl, ?_, ?_, ?_, ?_⟩
  · exact ring_addBefore (ring_init h.runQ hpr) hpr
  · have hfree : k.freelist.Ring .head ([] ++ .proc p :: f'.map .proc) := h.freelist
    exact ring_init (hfree.unlink .null) hpf
  · refine List.Perm.trans ?_ h.perm
    change (r ++ [p] ++ f' ++ k.rp.toList).Perm _
    rw [List.append_assoc r [p] f', List.singleton_append]
  · intro pos save hscan
    change k.scan = _ at hscan
    rw [hs] at hscan
    cases hscan

theorem Places.leave (h : Places k r f) (hr : k.rp = .proc p) :
  Places ((k.reset p).setRunQ (Links.addBefore (.proc p) .head)).left (r ++ [p]) f
  := by
  obtain ⟨hpr, hpf⟩ := h.notMem_of_rp hr
  refine ⟨?_, h.freelist, ?_, ?_⟩
  · exact ring_addBefore h.runQ hpr
  · refine List.Perm.trans ?_ h.perm
    rw [hr]
    change (r ++ [p] ++ f ++ []).Perm (r ++ f ++ [p])
    rw [List.append_nil, List.append_assoc, List.append_assoc]
    exact List.Perm.append_left r List.perm_append_comm
  · intro pos save hscan
    have hnone := h.scan_none hr
    change k.scan = _ at hscan
    rw [hnone] at hscan
    cases hscan

/-- The scheduler goes on with the next entry. -/
theorem Places.advance {r₁ r₂ : List ProcId} {save : QNode} (h : Places k (r₁ ++ r₂) f)
    (hr : k.rp = .bad) (hs : save = (r₂.map .proc).headD .head) :
  Places (k.advanced save) (r₁ ++ r₂) f
  := by
  refine ⟨h.runQ, h.freelist, h.perm, ?_⟩
  rintro pos save' ⟨⟩
  refine ⟨hr, ?_⟩
  cases r₂ with
  | nil =>
      left
      exact hs
  | cons q r₂ =>
      right
      subst hs
      exact ⟨q, by simp, rfl, rfl⟩

/-- A process on the run queue has processes before and after it. -/
theorem Places.split {save : QNode} (h : Places k r f) (hs : k.scan = some (.proc p, save)) :
  ∃ r₁ r₂, r = r₁ ++ p :: r₂ ∧ save = (r₂.map .proc).headD .head
  := by
  obtain ⟨-, hpos | ⟨q, hq, hpos, hsave⟩⟩ := h.scan _ _ hs
  · cases hpos
  · cases hpos
    obtain ⟨r₁, r₂, rfl⟩ := List.append_of_mem hq
    refine ⟨r₁, r₂, rfl, ?_⟩
    rw [hsave]
    have hring := h.runQ
    rw [List.map_append, List.map_cons] at hring
    exact hring.neighbours.2

theorem Places.notMem_split {r₁ r₂ : List ProcId} (h : Places k (r₁ ++ p :: r₂) f) :
  p ∉ r₁ ++ r₂ ∧ p ∉ f
  := by
  have hn := h.nodup
  have hperm : (r₁ ++ p :: r₂ ++ f ++ k.rp.toList).Perm (p :: (r₁ ++ r₂ ++ f ++ k.rp.toList)) :=
    (List.perm_middle.append_right f).append_right _
  rw [hperm.nodup_iff, List.nodup_cons] at hn
  simp only [List.mem_append, not_or] at hn ⊢
  exact ⟨hn.1.1.1, hn.1.1.2⟩

theorem Places.recycle {r₁ r₂ : List ProcId} {groups : Nat → Option ProcGroup}
    (h : Places k (r₁ ++ p :: r₂) f) (hr : k.rp = .bad) :
  Places { (k.setRunQ (Links.unlink .null (.proc p))).recycled p groups with scan := none }
    (r₁ ++ r₂) (f ++ [p])
  := by
  obtain ⟨hpr, hpf⟩ := h.notMem_split
  refine ⟨?_, ?_, ?_, ?_⟩
  · have hring := h.runQ
    rw [List.map_append, List.map_cons] at hring
    have hunlink := hring.unlink .null
    rw [← List.map_append] at hunlink
    exact ring_init hunlink hpr
  · exact ring_addBefore (ring_init h.freelist hpf) hpf
  · refine List.Perm.trans ?_ h.perm
    change (r₁ ++ r₂ ++ (f ++ [p]) ++ k.rp.toList).Perm _
    rw [hr]
    simp only [Rp.toList, List.append_nil]
    refine List.Perm.trans ?_ (List.perm_middle.append_right f).symm
    rw [← List.append_assoc]
    exact List.perm_append_singleton p _
  · rintro pos save ⟨⟩

theorem Places.run {r₁ r₂ : List ProcId} (h : Places k (r₁ ++ p :: r₂) f) (hr : k.rp = .bad) :
  Places (k.started p) (r₁ ++ r₂) f
  := by
  refine ⟨?_, h.freelist, ?_, ?_⟩
  · have hring := h.runQ
    rw [List.map_append, List.map_cons] at hring
    have hunlink := hring.unlinkInit
    rw [← List.map_append] at hunlink
    exact hunlink
  · refine List.Perm.trans ?_ h.perm
    rw [hr]
    change (r₁ ++ r₂ ++ f ++ [p]).Perm (r₁ ++ p :: r₂ ++ f ++ [])
    rw [List.append_nil]
    refine List.Perm.trans (List.perm_append_singleton p _) ?_
    exact (List.perm_middle.append_right f).symm
  · rintro pos save ⟨⟩

/-! ### All steps -/

/-- The events of processes and interrupts that start no process do not change the places. -/
theorem Effect.places (h : Effect k e k') (he : e ≠ .preempt) (hx : ∀ tty, e ≠ .exec tty)
    (hl : e ≠ .leave) (hd : e ≠ .dispatch) :
  k'.runQ = k.runQ ∧ k'.freelist = k.freelist ∧ k'.rp = k.rp ∧ k'.scan = k.scan
  := by
  cases h with
  | exec => exact absurd rfl (hx _)
  | execOpen => exact absurd rfl (hx _)
  | exitWake hr hc hw =>
      have hstill := (wakeWaiting_woken hw).still
      exact ⟨hstill.runQ, hstill.freelist, hstill.rp, hstill.scan⟩
  | preempt => exact absurd rfl he
  | preemptNone => exact absurd rfl he
  | leave => exact absurd rfl hl
  | leaveNone => exact absurd rfl hl
  | start => exact absurd rfl hd
  | idle => exact absurd rfl hd
  | stop => exact absurd rfl hd
  | recycle => exact absurd rfl hd
  | skip => exact absurd rfl hd
  | run => exact absurd rfl hd
  | _ => exact ⟨rfl, rfl, rfl, rfl⟩

theorem Places.still (h : Places k r f) (hs : Still k k') :
  Places k' r f
  := h.congr hs.runQ hs.freelist hs.rp hs.scan

theorem Places.dispatch (h : Places k r f) (he : Effect k .dispatch k') :
  ∃ r' f', Places k' r' f' ∧ Moves k k' r f r' f'
  := by
  cases he with
  | start hr hs hn =>
      refine ⟨r, f, ⟨h.runQ, h.freelist, h.perm, ?_⟩, .none rfl⟩
      rintro pos save ⟨⟩
      refine ⟨hr, ?_⟩
      cases r with
      | nil =>
          left
          exact h.runQ.neighbours_head.1
      | cons p r =>
          right
          have hnext : k.runQ.next .head = .proc p := h.runQ.neighbours_head.1
          refine ⟨p, List.mem_cons_self, hnext, ?_⟩
          rw [hnext]
  | idle hr hs hn => exact ⟨r, f, h, .none rfl⟩
  | stop hr hs =>
      refine ⟨r, f, ⟨h.runQ, h.freelist, h.perm, ?_⟩, .none rfl⟩
      rintro pos save ⟨⟩
  | recycle hr hs hd =>
      obtain ⟨r₁, r₂, rfl, hsave⟩ := h.split hs
      exact ⟨r₁ ++ r₂, f ++ [_], (h.recycle hr).advance hr hsave, .recycle hr hr hd⟩
  | @skip p save k₁ hr hs hd hh hn =>
      obtain ⟨r₁, r₂, rfl, hsave⟩ := h.split hs
      have hstill := handleSignals_still hh
      have hk₁ : Places (k₁.reset p) (r₁ ++ p :: r₂) f := (h.still hstill).congr rfl rfl rfl rfl
      refine ⟨r₁ ++ p :: r₂, f, ?_, .none (by rw [← hstill.rp]; rfl)⟩
      rw [List.append_cons] at hk₁ ⊢
      exact hk₁.advance (hstill.rp.trans hr) hsave
  | @run p save k₁ hr hs hd hh hn =>
      obtain ⟨r₁, r₂, rfl, -⟩ := h.split hs
      have hstill := handleSignals_still hh
      have hk₁ : Places (k₁.reset p) (r₁ ++ p :: r₂) f := (h.still hstill).congr rfl rfl rfl rfl
      exact ⟨r₁ ++ r₂, f, hk₁.run (hstill.rp.trans hr), .run hr rfl⟩

/-- Every step keeps every process structure in one place. -/
theorem Places.step (h : Places k r f) (he : Effect k e k') :
  ∃ r' f', Places k' r' f' ∧ Moves k k' r f r' f'
  := by
  cases e with
  | exec tty =>
      cases he with
      | exec hr hf h₀ ht =>
          obtain ⟨f', rfl, hk'⟩ := h.spawn (h.scan_none hr.rp) (-1) hf
          exact ⟨_, f', hk', .spawn rfl⟩
      | execOpen hr hf h₀ ht hd =>
          obtain ⟨f', rfl, hk'⟩ := h.spawn (h.scan_none hr.rp) (-1) hf
          exact ⟨_, f', hk'.congr rfl rfl rfl rfl, .spawn rfl⟩
  | preempt =>
      cases he with
      | preempt hr hw hh =>
          have hstill := (paused_still _ k).trans (handleSignals_still hh)
          refine ⟨r, f, h.congr hstill.runQ hstill.freelist hstill.rp hstill.scan, .none ?_⟩
          exact congrArg Rp.toList hstill.rp
      | preemptNone hr hw => exact ⟨r, f, h.congr rfl rfl rfl rfl, .none rfl⟩
  | leave =>
      cases he with
      | leave hr hw => exact ⟨_, f, h.leave hr, .leave hr rfl⟩
      | leaveNone hr hw =>
          have hnil : k.rp.toList = [] := by
            cases hrp : k.rp with
            | null => rfl
            | bad => rfl
            | proc p => exact absurd hrp (hr p)
          refine ⟨r, f, ⟨h.runQ, h.freelist, ?_, ?_⟩, .none hnil.symm⟩
          · have hperm := h.perm
            rw [hnil] at hperm
            exact hperm
          · intro pos save hscan
            exact ⟨rfl, (h.scan pos save hscan).2⟩
  | dispatch => exact h.dispatch he
  | _ =>
      obtain ⟨hq, hf, hr, hs⟩ := he.places nofun nofun nofun nofun
      exact ⟨r, f, h.congr hq hf hr hs, .none (by rw [hr])⟩

/-! ### Boot -/

theorem places_listsSet {freelist : Links QNode} {memory : Int → Slot}
    (hr : freelist.Ring .head ((List.finRange maxProc).reverse.map .proc)) :
  Places (listsSet freelist memory) [] (List.finRange maxProc).reverse
  := by
  refine ⟨Links.alone_init.ring, hr, ?_, ?_⟩
  · change ([] ++ (List.finRange maxProc).reverse ++ []).Perm _
    rw [List.nil_append, List.append_nil]
    exact List.reverse_perm _
  · rintro pos save ⟨⟩

/-- What `schedProc` leads to keeps every process structure in one place. -/
theorem Places.schedProc {tty : Bool} (h : Places k r f) (hs : k.scan = none)
    (hx : schedProc tty k = .done p k') :
  ∃ f', f = p :: f' ∧ Places k' (r ++ [p]) f'
  := by
  obtain ⟨⟨hf, -, -⟩, hk'⟩ := schedProc_taken hx
  obtain ⟨f', hf', hplaces⟩ := h.spawn hs (-1) hf
  refine ⟨f', hf', ?_⟩
  rcases hk' with rfl | ⟨fd, -, rfl⟩
  · exact hplaces
  · exact hplaces.congr rfl rfl rfl rfl

theorem Booted.places (h : Booted k) :
  ∃ r f, Places k r f
  := by
  obtain ⟨freelist, memory, tty, p, hring, hsched⟩ := h.spawned
  obtain ⟨f', -, hplaces⟩ := (places_listsSet hring).schedProc rfl hsched
  exact ⟨_, _, hplaces⟩

/-! ### Every process structure is in one place -/

/-- In every state of every run each process structure is exactly once in exactly one of the
run queue, the free list and the running slot, and both lists are well formed. -/
theorem one_place {k₀ k : Kernel} (h₀ : Booted k₀) (h : Run.ReachAny Step k₀ k) :
  ∃ r f : List ProcId, k.runQ.Ring .head (r.map .proc) ∧ k.freelist.Ring .head (f.map .proc) ∧
    (r ++ f ++ k.rp.toList).Perm (List.finRange maxProc)
  := by
  have hinv : ∃ r f, Places k r f := by
    refine h.invariant (P := fun k => ∃ r f, Places k r f) h₀.places ?_
    rintro t e t' ⟨r, f, hp⟩ - hs
    obtain ⟨r', f', hp', -⟩ := hp.step hs.effect
    exact ⟨r', f', hp'⟩
  obtain ⟨r, f, hp⟩ := hinv
  exact ⟨r, f, hp.runQ, hp.freelist, hp.perm⟩

/-- One process exits and wakes the one that waits for it, which runs; another one was aborted. -/
theorem one_place_torgo :
  ∃ k, Run.ReachAny Step booted k ∧ k.rp = .proc 126 ∧ k.procTable 3 = .null ∧
    ∃ r f : List ProcId, k.runQ.Ring .head (r.map .proc) ∧ k.freelist.Ring .head (f.map .proc) ∧
      (r ++ f ++ k.rp.toList).Perm (List.finRange maxProc)
  := by
  obtain ⟨k, hk, hP⟩ := exists_run (P := fun k => k.rp = .proc 126 ∧ k.procTable 3 = .null)
    (signalled sigAbort ++ [.exit, .exit, .preempt, .leave, .dispatch, .dispatch, .dispatch])
    (by decide +kernel)
  obtain ⟨hrp, htable⟩ := of_decide_eq_true hP
  exact ⟨k, hk, hrp, htable, one_place booted_booted hk⟩

end Process
