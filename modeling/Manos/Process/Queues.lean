import Manos.Lib.Rings
import Manos.Lists.ForEach
import Manos.Process.Portals

/-!
# The wait queues

The processes that wait for another one are on its wait queue, as long as signals are handled
only of processes that are on none, and no process is recycled while others wait for it.  Exits are
not interrupted here.
-/

namespace Process

open Exec

variable {k k' : Kernel} {p q : ProcId} {e : Event} {r f : List ProcId}
variable {used : ProcId → Prop} {on on' : ProcId → List ProcId}

/-! ### Waking -/

theorem waitNames : Links.Names WNode.waitQ WNode.nextWaitQ where
  head_inj := fun _ _ h => WNode.waitQ.inj h
  node_inj := fun _ _ h => WNode.nextWaitQ.inj h
  disjoint := nofun

/-- The wait queues hold the processes `on`. -/
abbrev Kernel.Queues (k : Kernel) (used : ProcId → Prop) (on : ProcId → List ProcId) : Prop :=
  Links.Rings .waitQ .nextWaitQ k.waits used on

/-- The kernel after the processes `l` were woken. -/
def Kernel.wakened (waits : Links WNode) (l : List ProcId) (k : Kernel) : Kernel :=
  { k with
    waits := waits
    procs := fun q => if q ∈ l then { k.procs q with state := .ready } else k.procs q }

/-- To wake one process and then the others. -/
theorem wakened_cons (waits : Links WNode) (a : ProcId) (l : List ProcId) (k : Kernel) :
  ((k.setWaits fun _ => k.waits.unlinkInit (.nextWaitQ a)).setProc a
    fun p => { p with state := .ready }).wakened waits l = k.wakened waits (a :: l)
  := by
  simp only [Kernel.wakened, Kernel.mk.injEq, and_true, Kernel.setProc, Kernel.setWaits]
  funext q
  by_cases hq : q = a
  · subst hq
    simp
  · simp [hq]

/-- A turn of the loop of `wakeWaiting`. -/
theorem wakeLoop_turn {a : ProcId} {k₁ : Kernel} (h : wake a k = .done () k₁) (n : Nat)
    (save : WNode) :
  wakeLoop p (n + 1) (.nextWaitQ a) save k
    = wakeLoop p n save (if save = .waitQ p then .null else k₁.waits.next save) k₁
  := by
  rw [wakeLoop.eq_def]
  change ((wake a) >>= _) k = _
  rw [bind_done h]
  rfl

/-- The loop of `wakeWaiting` takes every process off the queue. -/
theorem wakeLoop_queues (save : WNode) {l : List ProcId} {n : Nat} (hn : l.length < n)
    (hq : k.Queues used on) (hon : on p = l)
    (hs : (l.map WNode.nextWaitQ).headD (.waitQ p) ≠ .waitQ p →
      save = k.waits.next ((l.map WNode.nextWaitQ).headD (.waitQ p))) :
  ∃ waits, wakeLoop p n ((l.map WNode.nextWaitQ).headD (.waitQ p)) save k
      = .done () (k.wakened waits l) ∧
    (k.wakened waits l).Queues used (Function.update on p [])
  := by
  induction l generalizing k n save on with
  | nil =>
      cases n with
      | zero => cases hn
      | succ n =>
          refine ⟨k.waits, ?_, ?_⟩
          · simp [wakeLoop, Kernel.wakened, pure_apply]
          · have hsame : Function.update on p [] = on := by
              rw [← hon, Function.update_eq_self]
            rw [hsame]
            exact hq
  | cons a l ih =>
      cases n with
      | zero => cases hn
      | succ n =>
          have hp : used p := by
            by_contra hp
            rw [hq.unused p hp] at hon
            cases hon
          have hring : k.waits.Ring (.waitQ p) ([] ++ .nextWaitQ a :: l.map WNode.nextWaitQ) := by
            have hring := hq.ring p hp
            rwa [hon] at hring
          have hsave : save = (l.map WNode.nextWaitQ).headD (.waitQ p) := by
            have hne : (((a :: l).map WNode.nextWaitQ).headD (.waitQ p)) ≠ .waitQ p := by
              rintro ⟨⟩
            rw [hs hne]
            exact hring.neighbours.2
          have hturn := wake_apply a k
          generalize hk₁ : (k.setWaits fun _ => k.waits.unlinkInit (.nextWaitQ a)).setProc a
            (fun p => { p with state := .ready }) = k₁ at hturn
          have hq₁ : k₁.Queues used (Function.update on p l) := by
            rw [← hk₁]
            exact hq.unlinkInit waitNames (show on p = [] ++ a :: l from hon)
          have hrec := ih (if save = .waitQ p then .null else k₁.waits.next save)
            (Nat.lt_of_succ_lt_succ hn) hq₁ (Function.update_self _ _ _) ?_
          · obtain ⟨waits, hdone, hq'⟩ := hrec
            have hkernel : k₁.wakened waits l = k.wakened waits (a :: l) := by
              rw [← hk₁]
              exact wakened_cons waits a l k
            rw [hkernel, Function.update_idem] at hq'
            rw [hkernel, ← hsave] at hdone
            refine ⟨waits, ?_, hq'⟩
            rw [← hdone]
            exact wakeLoop_turn hturn n save
          · intro hne
            rw [← hsave] at hne ⊢
            rw [if_neg hne]

/-- `wakeWaiting(p)` returns, and makes the processes ready that wait for `p`. -/
theorem wakeWaiting_queues (hq : k.Queues used on) (hp : used p) :
  ∃ waits, wakeWaiting p k = .done () (k.wakened waits (on p)) ∧
    (k.wakened waits (on p)).Queues used (Function.update on p [])
  := by
  have hring := hq.ring p hp
  have hfirst := hring.neighbours_head.1
  have hlength : (on p).length < wakeBound := by
    have hnodup := (List.nodup_cons.mp hring.nodup).2
    have hcard := (List.Nodup.of_map _ hnodup).length_le_card
    rw [Fintype.card_fin] at hcard
    exact Nat.lt_succ_of_le hcard
  obtain ⟨waits, hdone, hq'⟩ := wakeLoop_queues (k.waits.next (k.waits.next (.waitQ p)))
    hlength hq rfl (fun _ => by rw [hfirst])
  refine ⟨waits, ?_, hq'⟩
  rw [wakeWaiting, bind_done (get_apply k)]
  rw [← hfirst] at hdone
  split
  · rename_i hself
    rw [← hdone, hself, wakeBound, wakeLoop.eq_def]
    dsimp only
    rw [if_pos rfl]
  · exact hdone

/-! ### The macro of the loop -/

/-- The body of the loop of `wakeWaiting`, at the entry of a node. -/
def wakeEntry : WNode → K Unit
  | .nextWaitQ q => wake q
  | .waitQ _ => Exec.fault (.wild "waiting")
  | .null => Exec.fault (.wild "waiting")

/-- The loop of `wakeWaiting` does what that of `LIST_FOR_EACH_ENTRY_SAFE` does. -/
theorem wakeLoop_of_eachLoop {n : ℕ} {pos save : WNode} {x : Option WNode}
    (h : ListHead.eachLoop Kernel.waits .null (.waitQ p) wakeEntry n (some pos) x k = .done () k')
    (hx : pos ≠ .waitQ p → x = some save) :
  wakeLoop p (n + 1) pos save k = .done () k'
  := by
  induction n generalizing k pos save x with
  | zero =>
      rw [wakeLoop.eq_def]
      dsimp only
      by_cases hpos : pos = .waitQ p
      · rw [hpos, ListHead.eachLoop_head] at h
        rw [if_pos hpos]
        exact h
      · rw [ListHead.eachLoop, if_neg hpos] at h
        cases h
  | succ n ih =>
      by_cases hpos : pos = .waitQ p
      · rw [hpos, ListHead.eachLoop_head] at h
        rw [wakeLoop.eq_def]
        dsimp only
        rw [if_pos hpos]
        exact h
      · rw [hx hpos, ListHead.eachLoop, if_neg hpos] at h
        cases pos with
        | null => cases h
        | waitQ q => cases h
        | nextWaitQ q =>
            have hturn := wake_apply q k
            rw [wakeLoop_turn hturn]
            obtain ⟨x, k₂, hnext, hrest⟩ := bind_eq_done_iff.mp ((bind_done hturn).symm.trans h)
            obtain ⟨rfl, hx'⟩ := ListHead.listNextEntryOrNull_cases hnext
            apply ih hrest
            intro hsave
            rw [if_neg hsave]
            exact hx' hsave

/-- `wakeWaiting` does what `LIST_FOR_EACH_ENTRY_SAFE` with its body does. -/
theorem wakeWaiting_of_forEach
    (h : ListHead.listForEachEntrySafe Kernel.waits .null (.waitQ p) wakeEntry maxProc k
      = .done () k') :
  wakeWaiting p k = .done () k'
  := by
  have hfirst : ListHead.listFirstEntryOrNull Kernel.waits .null (.waitQ p) k = _ :=
    ListHead.listFirstEntryOrNull_apply (by simp) k
  rw [ListHead.listForEachEntrySafe, bind_done hfirst] at h
  rw [wakeWaiting, bind_done (get_apply k)]
  by_cases hempty : k.waits.next (.waitQ p) = .waitQ p
  · rw [if_pos hempty, if_neg (fun h => h rfl)] at h
    rw [if_pos hempty]
    exact h
  · rw [if_neg hempty, if_pos (Option.some_ne_none _)] at h
    rw [if_neg hempty]
    obtain ⟨x, k₁, hnext, hrest⟩ := bind_eq_done_iff.mp h
    obtain ⟨rfl, hx⟩ := ListHead.listNextEntryOrNull_cases hnext
    exact wakeLoop_of_eachLoop hrest hx

/-- The nodes on the wait queue of `p` are those of processes. -/
def Kernel.WaitQ (p : ProcId) (k : Kernel) : Prop :=
  ∃ l : List ProcId, k.waits.Ring (.waitQ p) (l.map WNode.nextWaitQ)

/-- The body of `wakeWaiting` takes the current entry off the list. -/
theorem wakeEntry_safe (p : ProcId) :
  ListHead.SafeBody Kernel.waits .null (.waitQ p) (Kernel.WaitQ p) (fun _ _ => .unlinkAndInit)
    wakeEntry
  := by
  constructor
  rintro k l x ⟨l', hl'⟩ h hx
  obtain rfl := h.ring.unique hl'
  obtain ⟨q, hq, rfl⟩ := List.mem_map.mp hx
  refine ⟨(), _, wake_apply q k, ?_, fun y _ _ => ⟨rfl, rfl⟩⟩
  obtain ⟨l₁, l₂, rfl⟩ := List.append_of_mem hq
  use l₁ ++ l₂
  rw [List.map_append, List.map_cons] at hl'
  rw [List.map_append]
  exact hl'.unlinkInit

/-- `wakeWaiting` wakes the processes on the queue one after another, and leaves it empty. -/
theorem wakeWaiting_forM {l : List ProcId}
    (h : k.waits.Ring (.waitQ p) (l.map WNode.nextWaitQ)) :
  wakeWaiting p k = (l.map WNode.nextWaitQ).forM wakeEntry k ∧
    Returns k (wakeWaiting p) fun _ k' => k'.waits.Ring (.waitQ p) []
  := by
  have hlist : ListHead.IsList .null (.waitQ p) k.waits (l.map WNode.nextWaitQ) := by
    refine ⟨h, ?_⟩
    simp
  have hlength : (l.map WNode.nextWaitQ).length ≤ maxProc := by
    have hnodup := (List.nodup_cons.mp h.nodup).2
    have hcard := (List.Nodup.of_map _ hnodup).length_le_card
    rwa [Fintype.card_fin, ← List.length_map WNode.nextWaitQ] at hcard
  obtain ⟨heq, hret⟩ := ListHead.forEachEntrySafe_eq (wakeEntry_safe p) ⟨l, h⟩ hlist hlength
  obtain ⟨_, k', hdone, -, hk'⟩ := hret
  have hwake := wakeWaiting_of_forEach (heq.trans hdone)
  refine ⟨hwake.trans hdone.symm, _, k', hwake, ?_⟩
  rw [ListHead.remaining_eq_nil (fun _ _ => by decide)] at hk'
  exact hk'.ring

/-! ### The condition and the invariant -/

/-- The step keeps the wait queues: it waits only for processes in the table, signals are handled
only of processes that are on no queue, a process is made to wait only if it is on none, and no
process is recycled that others wait for. -/
structure KeepsQueues (k : Kernel) (e : Event) : Prop where
  waitpid : ∀ pid p, e = .waitpid pid → k.procTable pid = .proc p → Live k p
  handled : ∀ p, Handles k e p → (k.procs p).handled ≠ none → k.waits.Alone (.nextWaitQ p)
  parent : ∀ p q, Handles k e p → (k.procs p).handled = some sigContinue →
    k.procTable (k.procs p).ppid = .proc q → k.waits.Alone (.nextWaitQ q)
  recycle : ∀ p, Recycles k e p → k.waits.Alone (.waitQ p)

/-- The structure of the process was used. -/
def Kernel.Used (k : Kernel) (p : ProcId) : Prop := (k.procs p).pid ≠ 0

/-- The wait queues hold the processes `on`, which wait for processes in the table. -/
structure Waiting (k : Kernel) (on : ProcId → List ProcId) : Prop where
  queues : k.Queues k.Used on
  waiting : ∀ p q, p ∈ on q → (k.procs p).state = .waiting
  live : ∀ p q, p ∈ on q → Live k q

/-- What a step does to the wait queues. -/
inductive Requeue (k : Kernel) (e : Event) (k' : Kernel) (on : ProcId → List ProcId) :
    (ProcId → List ProcId) → Prop where
  | same (hn : ∀ q, ¬ Wakes k e q) (hj : ∀ pid, e = .waitpid pid → k' = k) : Requeue k e k' on on
  | join {p q : ProcId} {pid : Int} (he : e = .waitpid pid) (hr : Executes k p)
      (hpid : 0 ≤ pid ∧ pid ≤ maxProc) (hq : k.procTable pid = .proc q)
      (hs : (k'.procs p).state = .waiting) :
      Requeue k e k' on (Function.update on q (p :: on q))
  | wake {q : ProcId} (hw : Wakes k e q)
      (hs : ∀ p, p ∈ on q → (k'.procs p).state ≠ .waiting) :
      Requeue k e k' on (Function.update on q [])
  | continued {p q : ProcId} (hh : Handles k e q) (hsig : (k.procs q).handled = some sigContinue)
      (hp : k.procTable (k.procs q).ppid = .proc p)
      (hs : (k'.procs p).state = .waiting ∧ (k'.procs p).cause = .continued) :
      Requeue k e k' on (Function.update on q (p :: on q))

/-- The pid that the process waits for in the step. -/
def Event.waitsFor : Event → Option Int
  | .waitpid pid => some pid
  | _ => none

/-! ### Steps -/

theorem wakes_unique (h : Wakes k e p) (h' : Wakes k e q) :
  p = q
  := by
  rcases h with ⟨rfl, hr⟩ | ⟨hh, -⟩
  · rcases h' with ⟨-, hr'⟩ | ⟨hh', -⟩
    · exact Rp.proc.inj (hr.rp.symm.trans hr'.rp)
    · exact absurd hh' (not_handles nofun nofun)
  · rcases h' with ⟨rfl, -⟩ | ⟨hh', -⟩
    · exact absurd hh (not_handles nofun nofun)
    · exact handles_unique hh hh'

/-- A process that is not free was used. -/
theorem Inv.used_of_notMem (h : Inv k r f) (hp : p ∉ f) :
  k.Used p
  := h.table.used p hp

/-- A process that does not wait is on no queue. -/
theorem Waiting.notMem {on : ProcId → List ProcId} (h : Waiting k on)
    (hp : (k.procs p).state ≠ .waiting) :
  ∀ q, p ∉ on q
  := fun q hmem => hp (h.waiting p q hmem)

/-- The process that runs is on no queue. -/
theorem Inv.runs_notMem (h : Inv k r f) (hw : Waiting k on) (hr : Runs k p) :
  ∀ q, p ∉ on q
  := hw.notMem ((h.states.running p hr.rp hr.switching).2.2 hr.pendsv)

/-- Pids are given to processes that are made. -/
theorem Change.pid {x : Proc} (hx : Change k e k' q x) (hs : ¬ Spawns k e q) :
  x.pid = (k.procs q).pid
  := by
  cases hx with
  | spawn hsp => exact absurd hsp hs
  | preempt he hr hw hx' =>
      obtain ⟨s, c, rfl⟩ := hx'.paused_form
      rfl
  | skip hh he hx' => exact hx'.self_same.2
  | run hh he hx' => exact hx'.self_same.2
  | _ => rfl

theorem Effect.used_same (he : Effect k e k') (hx : ∀ tty, e ≠ .exec tty) :
  k'.Used = k.Used
  := by
  funext q
  rw [Kernel.Used, (he.change q).pid]
  · rfl
  · rintro ⟨tty, hev, -⟩
    exact hx tty hev

/-- A process in the table was used. -/
theorem Inv.used_of_live (h : Inv k r f) (hp : Live k p) :
  k.Used p
  := h.used_of_notMem (h.table.live_iff.mp hp)

theorem Inv.used_spawned (h : Inv k r f) (he : Effect k e k') (hs : Spawns k e p) :
  k'.Used = fun q => q = p ∨ k.Used q
  := by
  funext q
  apply propext
  by_cases hq : q = p
  · subst hq
    refine ⟨fun _ => .inl rfl, fun _ => ?_⟩
    obtain ⟨r', f', hinv⟩ := h.step he
    exact hinv.used_of_live (h.live_spawned he hs)
  · have hn : ¬ Spawns k e q := by
      rintro ⟨tty, -, hq'⟩
      obtain ⟨tty', -, hp⟩ := hs
      exact hq (QNode.proc.inj (hq'.symm.trans hp))
    rw [Kernel.Used, (he.change q).pid hn]
    exact ⟨.inr, fun h => h.resolve_left hq⟩

/-- What the cases of `processSignals` do to the queues. -/
theorem Handled.queues (h : Handled k p k') (hq : k.Queues used on) (hp : used p)
    (hpar : (k.procs p).handled = some sigContinue → ∀ q, k.procTable (k.procs p).ppid = .proc q →
      used q ∧ k.waits.Alone (.nextWaitQ q)) :
  (k'.Queues used on ∧ ¬ ((k.procs p).handled = some sigAbort ∨
      (k.procs p).handled = some sigStop)) ∨
    (k'.Queues used (Function.update on p []) ∧
      ((k.procs p).handled = some sigAbort ∨ (k.procs p).handled = some sigStop) ∧
      ∀ q, q ∈ on p → (k'.procs q).state ≠ .waiting) ∨
    ∃ q, (k.procs p).handled = some sigContinue ∧ k.procTable (k.procs p).ppid = .proc q ∧
      ((k'.procs q).state = .waiting ∧ (k'.procs q).cause = .continued) ∧
        k'.Queues used (Function.update on p (q :: on p))
  := by
  have hwake : ∀ k₁, wakeWaiting p k = .done () k₁ →
      k₁.Queues used (Function.update on p []) ∧ ∀ q, q ∈ on p → (k₁.procs q).state = .ready := by
    intro k₁ hk₁
    obtain ⟨waits, hdone, hq'⟩ := wakeWaiting_queues hq hp
    rw [hdone] at hk₁
    cases hk₁
    exact ⟨hq', fun q hmem => congrArg Proc.state (if_pos hmem)⟩
  -- the process itself may be among those that wait for it
  have hself : ∀ (k₁ : Kernel) (s : ProcState) q, s ≠ .waiting → (k₁.procs q).state = .ready →
      ((k₁.setProc p fun x => { x with state := s }).procs q).state ≠ .waiting := by
    intro k₁ s q hs hq
    by_cases hqp : q = p
    · rw [hqp, Kernel.setProc_self]
      exact hs
    · rw [Kernel.setProc_of_ne hqp, hq]
      nofun
  cases h with
  | @abort k₁ hs hw =>
      obtain ⟨hq₁, hready⟩ := hwake k₁ hw
      exact .inr (.inl ⟨hq₁, .inl hs, fun q hq => hself _ .dead q nofun (hready q hq)⟩)
  | @stop k₁ hs hw =>
      obtain ⟨hq₁, hready⟩ := hwake k₁ hw
      have halone : k₁.waits.Alone (.waitQ p) := by
        have hring := hq₁.ring p hp
        rw [Function.update_self] at hring
        exact hring.alone
      refine .inr (.inl ⟨?_, .inr hs, fun q hq => hself _ .stopped q nofun (hready q hq)⟩)
      change Links.Rings _ _ (k₁.waits.init (.waitQ p)) _ _
      rw [halone.init]
      exact hq₁
  | @continued q hs hq' =>
      obtain ⟨hused, halone⟩ := hpar hs q hq'
      refine .inr (.inr ⟨q, hs, hq', ?_, ?_⟩)
      · rw [Kernel.setProc_self]
        exact ⟨rfl, rfl⟩
      · exact hq.addAfter waitNames hused hp (hq.notMem_of_alone waitNames halone)
  | alarm hs =>
      refine .inl ⟨hq, ?_⟩
      rw [hs]
      decide
  | none hs =>
      refine .inl ⟨hq, ?_⟩
      rw [hs]
      nofun

/-- Steps that handle no signals and do not exit wake no process. -/
theorem not_wakes (hp : e ≠ .preempt) (hd : e ≠ .dispatch) (hx : e ≠ .exit) :
  ¬ Wakes k e q
  := by
  rintro (⟨he, -⟩ | ⟨hh, -⟩)
  · exact hx he
  · exact not_handles hp hd hh

/-- The signals of a process are handled. -/
theorem Inv.requeue_handled {k₁ k₂ : Kernel} (h : Inv k r f) (hw : Waiting k on)
    (hk : KeepsQueues k e) (hh : Handles k e p) (h₁ : Handled k₁ p k₂)
    (hwaits : k₁.waits = k.waits) (htable : k₁.procTable = k.procTable)
    (hsame : (k₁.procs p).handled = (k.procs p).handled ∧ (k₁.procs p).ppid = (k.procs p).ppid)
    (hk' : k'.waits = k₂.waits) (hused : k'.Used = k.Used)
    (hstate : ∀ q, (k₂.procs q).state = .waiting → (k₂.procs q).cause = .continued →
      (k'.procs q).state = .waiting ∧ (k'.procs q).cause = .continued)
    (hwoken : ∀ q, (k₂.procs q).state ≠ .waiting → (k'.procs q).state ≠ .waiting) :
  ∃ on', Requeue k e k' on on' ∧ k'.Queues k'.Used on'
  := by
  obtain ⟨hhandled, hppid⟩ := hsame
  have hq₁ : k₁.Queues k.Used on := by
    rw [Kernel.Queues, hwaits]
    exact hw.queues
  have hp : k.Used p := h.used_of_notMem (h.places.handles_notMem hh)
  have hpar : (k₁.procs p).handled = some sigContinue →
      ∀ q, k₁.procTable (k₁.procs p).ppid = .proc q → k.Used q ∧ k₁.waits.Alone (.nextWaitQ q) := by
    intro hs q hq
    rw [htable, hppid] at hq
    rw [hwaits]
    exact ⟨h.used_of_notMem (h.table.parent_notMem hq), hk.parent p q hh (hhandled ▸ hs) hq⟩
  have hwakes : ∀ q, Wakes k e q → q = p ∧
      ((k.procs p).handled = some sigAbort ∨ (k.procs p).handled = some sigStop) := by
    rintro q (⟨rfl, -⟩ | ⟨hh', hs⟩)
    · exact absurd hh (not_handles nofun nofun)
    · cases handles_unique hh hh'
      exact ⟨rfl, hs⟩
  have hqueues : ∀ on', k₂.Queues k.Used on' → k'.Queues k'.Used on' := by
    intro on' hq
    rw [hused, Kernel.Queues, hk']
    exact hq
  rcases h₁.queues hq₁ hp hpar with ⟨hq, hn⟩ | ⟨hq, hs, hst⟩ | ⟨q, hs, hq', hst, hq⟩
  · refine ⟨on, .same ?_ ?_, hqueues _ hq⟩
    · intro q hwq
      rw [hhandled] at hn
      exact hn (hwakes q hwq).2
    · rintro pid rfl
      exact absurd hh (not_handles nofun nofun)
  · rw [hhandled] at hs
    exact ⟨_, .wake (.inr ⟨hh, hs⟩) fun q hmem => hwoken q (hst q hmem), hqueues _ hq⟩
  · rw [htable, hppid] at hq'
    rw [hhandled] at hs
    exact ⟨_, .continued hh hs hq' (hstate q hst.1 hst.2), hqueues _ hq⟩

theorem Kernel.paused_waits (p : ProcId) (k : Kernel) :
  (k.paused p).waits = k.waits
  := by
  rw [Kernel.paused]
  split
  · rfl
  · rfl

theorem Kernel.paused_same (p : ProcId) (k : Kernel) :
  ((k.paused p).procs p).handled = (k.procs p).handled ∧
    ((k.paused p).procs p).ppid = (k.procs p).ppid
  := by
  rcases k.paused_cases p with hp | hp
  · rw [hp]
    exact ⟨rfl, rfl⟩
  · rw [hp]
    exact ⟨rfl, rfl⟩

/-- The steps that do not touch the wait queues. -/
theorem Effect.waits (he : Effect k e k') (h₁ : ∀ tty, e ≠ .exec tty)
    (h₂ : ∀ pid, e ≠ .waitpid pid) (h₃ : e ≠ .exit) (h₄ : e ≠ .preempt) (h₅ : e ≠ .dispatch) :
  k'.waits = k.waits
  := by
  cases he with
  | exec => exact absurd rfl (h₁ _)
  | execOpen => exact absurd rfl (h₁ _)
  | waitpid => exact absurd rfl (h₂ _)
  | exitWake => exact absurd rfl h₃
  | exitUnlink => exact absurd rfl h₃
  | preempt => exact absurd rfl h₄
  | recycle => exact absurd rfl h₅
  | skip => exact absurd rfl h₅
  | run => exact absurd rfl h₅
  | _ => rfl

/-- Every step that keeps the queues changes them in one of the ways of `Requeue`. -/
theorem Inv.requeue (h : Inv k r f) (hw : Waiting k on) (hk : KeepsQueues k e)
    (he : Effect k e k') :
  ∃ on', Requeue k e k' on on' ∧ k'.Queues k'.Used on'
  := by
  have hsame : (∀ tty, e ≠ .exec tty) → k'.waits = k.waits → (∀ q, ¬ Wakes k e q) →
      (∀ pid, e = .waitpid pid → k' = k) →
      ∃ on', Requeue k e k' on on' ∧ k'.Queues k'.Used on' := by
    intro hx hwaits hn hj
    refine ⟨on, .same hn hj, ?_⟩
    rw [he.used_same hx, Kernel.Queues, hwaits]
    exact hw.queues
  cases e with
  | exec tty =>
      have hspawn : ∀ p, Spawns k (.exec tty) p →
          k'.waits = (k.waits.init (.waitQ p)).init (.nextWaitQ p) →
          ∃ on', Requeue k (.exec tty) k' on on' ∧ k'.Queues k'.Used on' := by
        intro p hs hwaits
        have hl := h.not_live_spawns hs
        have hnot : ∀ m, p ∉ on m := by
          apply hw.notMem
          have hp : p ∈ f := by
            rw [h.table.live_iff, not_not] at hl
            exact hl
          rcases h.states.free p hp with hst | hst
          · rw [hst]
            nofun
          · rw [hst]
            nofun
        have hnil : on p = [] := by
          rw [List.eq_nil_iff_forall_not_mem]
          exact fun q hq => hl (hw.live q p hq)
        refine ⟨on, .same (fun q => not_wakes nofun nofun nofun) (by nofun), ?_⟩
        rw [h.used_spawned he hs, Kernel.Queues, hwaits]
        exact hw.queues.init waitNames hnil hnot
      cases he with
      | exec hr hf => exact hspawn _ ⟨tty, rfl, hf⟩ rfl
      | execOpen hr hf => exact hspawn _ ⟨tty, rfl, hf⟩ rfl
  | waitpid pid =>
      have hused := he.used_same nofun
      cases he with
      | waitpidNone => exact hsame nofun rfl (fun q => not_wakes nofun nofun nofun) fun _ _ => rfl
      | @waitpid p r _ hr h₀ h₁ ha hp =>
          refine ⟨_, .join rfl hr ⟨h₀, h₁⟩ hp ?_, ?_⟩
          · simp [Kernel.joined]
          · rw [hused]
            exact hw.queues.addAfter waitNames (h.used_of_live (h.live_runs hr.rp))
              (h.used_of_live (hk.waitpid pid p rfl hp)) (h.runs_notMem hw hr.toRuns)
  | exit =>
      have hused := he.used_same nofun
      have hnot : ∀ r, Runs k r → (k.procs r).ctl ≠ .user → ∀ q, ¬ Wakes k .exit q := by
        rintro r hr hc q (⟨-, hex⟩ | ⟨hh, -⟩)
        · cases Rp.proc.inj (hr.rp.symm.trans hex.rp)
          exact hc hex.ctl
        · exact absurd hh (not_handles nofun nofun)
      cases he with
      | @exitWake r k₁ hr hc hwake =>
          have hex : Executes k r := ⟨hr, hc⟩
          obtain ⟨waits, hdone, hq⟩ := wakeWaiting_queues hw.queues
            (h.used_of_live (h.live_runs hr.rp))
          rw [hdone] at hwake
          cases hwake
          refine ⟨_, .wake (.inl ⟨rfl, hex⟩) ?_, ?_⟩
          · intro p hp
            have hready : ((k.wakened waits (on r)).procs p).state = .ready :=
              congrArg Proc.state (if_pos hp)
            rw [Kernel.setProc_field Proc.state rfl p, hready]
            nofun
          · rw [hused]
            exact hq
      | @exitUnlink r hr hc =>
          have hl := h.live_runs hr.rp
          have halone := hw.queues.alone r (h.used_of_live hl) (h.runs_notMem hw hr)
          apply hsame nofun
          · change k.waits.unlinkInit (.nextWaitQ r) = k.waits
            exact halone.unlinkInit
          · exact hnot r hr (by rw [hc]; nofun)
          · nofun
      | exitFree hr hc => exact hsame nofun rfl (hnot _ hr (by rw [hc]; nofun)) nofun
      | exitDead hr hc => exact hsame nofun rfl (hnot _ hr (by rw [hc]; nofun)) nofun
      | exitYield hr hc => exact hsame nofun rfl (hnot _ hr (by rw [hc]; nofun)) nofun
      | exitNone hr hc => exact hsame nofun rfl (hnot _ hr hc) nofun
  | preempt =>
      have hused := he.used_same nofun
      cases he with
      | preempt hr hsw hh =>
          refine h.requeue_handled hw hk (.inl ⟨rfl, hr⟩) (handleSignals_handled hh)
            (k.paused_waits _) (paused_still _ k).procTable (k.paused_same _) rfl hused ?_ ?_
          · exact fun q hs hc => ⟨hs, hc⟩
          · exact fun q hs => hs
      | preemptNone hr hsw =>
          refine hsame nofun rfl ?_ nofun
          rintro q (⟨hev, -⟩ | ⟨⟨-, hrp⟩ | ⟨hev, -⟩, -⟩)
          · cases hev
          · exact absurd (hr.symm.trans hrp) nofun
          · cases hev
  | dispatch =>
      have hused := he.used_same nofun
      have hnone : (∀ p save, k.scan ≠ some (.proc p, save)) → ∀ q, ¬ Wakes k .dispatch q := by
        rintro hs q (⟨hev, -⟩ | ⟨⟨hev, -⟩ | ⟨-, -, ⟨save, hs'⟩, -⟩, -⟩)
        · cases hev
        · cases hev
        · exact hs q save hs'
      cases he with
      | @recycle p save groups hr hs hd =>
          have hrec : Recycles k .dispatch p := ⟨rfl, hr, ⟨save, hs⟩, hd⟩
          have hl : Live k p := by
            rw [h.table.live_iff]
            obtain ⟨r₁, r₂, rfl, -⟩ := h.places.split hs
            exact h.places.notMem_split.2
          have hnil := hw.queues.nil_of_alone waitNames (hk.recycle p hrec)
          have hinit := hw.queues.init waitNames hnil (hw.notMem (by rw [hd]; nofun))
          refine ⟨on, .same ?_ nofun, ?_⟩
          · rintro q (⟨hev, -⟩ | ⟨⟨hev, -⟩ | ⟨-, -, ⟨save', hs'⟩, hd'⟩, -⟩)
            · cases hev
            · cases hev
            · cases hs.symm.trans hs'
              exact hd' hd
          · have hadd : (fun m => m = p ∨ k.Used m) = k.Used := by
              funext m
              apply propext
              refine ⟨?_, .inr⟩
              rintro (rfl | hm)
              · exact h.used_of_live hl
              · exact hm
            rw [hused, ← hadd]
            exact hinit
      | @skip p save k₁ hr hs hd hh hn =>
          refine h.requeue_handled hw hk (.inr ⟨rfl, hr, ⟨_, hs⟩, hd⟩) (handleSignals_handled hh)
            rfl rfl ⟨rfl, rfl⟩ rfl hused ?_ ?_
          · intro q hst hc
            change ((k₁.reset p).procs q).state = _ ∧ ((k₁.reset p).procs q).cause = _
            exact ⟨(Kernel.setProc_field Proc.state rfl q).trans hst,
              (Kernel.setProc_field Proc.cause rfl q).trans hc⟩
          · intro q hst
            change ((k₁.reset p).procs q).state ≠ _
            unfold Kernel.reset
            rw [Kernel.setProc_field Proc.state rfl q]
            exact hst
      | @run p save k₁ hr hs hd hh hn =>
          refine h.requeue_handled hw hk (.inr ⟨rfl, hr, ⟨_, hs⟩, hd⟩) (handleSignals_handled hh)
            rfl rfl ⟨rfl, rfl⟩ rfl hused ?_ ?_
          · intro q hst hc
            have hqp : q ≠ p := by
              rintro rfl
              exact absurd (hn.symm.trans hst) nofun
            have hq : ((k₁.reset p).started p).procs q = k₁.procs q :=
              (Function.update_of_ne hqp _ _).trans (Function.update_of_ne hqp _ _)
            rw [hq]
            exact ⟨hst, hc⟩
          · intro q hst
            by_cases hqp : q = p
            · rw [hqp, Kernel.started_self]
              nofun
            · have hq : ((k₁.reset p).started p).procs q = k₁.procs q :=
                (Function.update_of_ne hqp _ _).trans (Function.update_of_ne hqp _ _)
              rw [hq]
              exact hst
      | start hr hs => exact hsame nofun rfl (hnone fun p save => by rw [hs]; nofun) nofun
      | idle hr hs => exact hsame nofun rfl (hnone fun p save => by rw [hs]; nofun) nofun
      | stop hr hs => exact hsame nofun rfl (hnone fun p save => by rw [hs]; nofun) nofun
  | _ =>
      refine hsame nofun (he.waits nofun nofun nofun nofun nofun) ?_ nofun
      exact fun q => not_wakes nofun nofun nofun

/-- A process that `wakeWaiting` comes to is on the queue. -/
theorem Inv.mem_of_onQueue (h : Inv k r f) (hw : Waiting k on) (hq : Wakes k e q)
    (hon : k.OnQueue q (.nextWaitQ p)) :
  p ∈ on q
  := by
  have hused : k.Used q := by
    rcases hq with ⟨-, hr⟩ | ⟨hh, -⟩
    · exact h.used_of_live (h.live_runs hr.rp)
    · exact h.used_of_notMem (h.places.handles_notMem hh)
  exact (hw.queues.reaches_iff waitNames hused).mp hon

/-- A process that waits goes on waiting, unless one of its signals is handled, or it is woken. -/
theorem Inv.waiting_change {x : Proc} (h : Inv k r f) (hst : (k.procs p).state = .waiting)
    (hnone : Handles k e p → (k.procs p).handled = none)
    (hno : ∀ m, Wakes k e m → ¬ k.OnQueue m (.nextWaitQ p)) (hx : Change k e k' p x) :
  x.state = .waiting ∧ (x.cause = (k.procs p).cause ∨ x.cause = .continued)
  := by
  have hrun : ¬ Runs k p := fun hr =>
    (h.states.running p hr.rp hr.switching).2.2 hr.pendsv hst
  have hspawn : ¬ Spawns k e p := by
    intro hs
    have hl := h.not_live_spawns hs
    rw [h.table.live_iff, not_not] at hl
    have := h.states.free p hl
    rw [hst] at this
    exact absurd this (by decide)
  have hsignal : ∀ y, Handles k e p → Signalled k p p y → y = k.procs p := by
    intro y hh hy
    rcases hy.self_cases with rfl | ⟨hc, -⟩
    · unfold Proc.after
      rw [hnone hh, if_neg nofun, if_neg nofun, if_pos rfl]
    · exact absurd ((hnone hh).symm.trans hc) nofun
  cases hx with
  | same => exact ⟨hst, .inl rfl⟩
  | spawn hs => exact absurd hs hspawn
  | waitpid he hr => exact absurd hr.toRuns hrun
  | own hr => exact absurd hr hrun
  | asleep he hr => exact absurd hr hrun
  | exitWake he hr => exact absurd hr.toRuns hrun
  | exitDead he hr => exact absurd hr hrun
  | woken hwk hq hon => exact absurd hon (hno _ hwk)
  | parent => exact ⟨rfl, .inr rfl⟩
  | post => exact ⟨hst, .inl rfl⟩
  | alarm => exact ⟨hst, .inl rfl⟩
  | preempt he hr hsw hx' =>
      rw [Kernel.paused_eq (by rw [hst]; nofun)] at hx'
      rw [hsignal _ (.inl ⟨he, hr⟩) hx']
      exact ⟨hst, .inl rfl⟩
  | left => exact ⟨hst, .inl rfl⟩
  | recycled hrec => exact absurd (hst.symm.trans hrec.2.2.2) nofun
  | skip hh he hx' =>
      rw [hsignal _ hh hx']
      exact ⟨hst, .inl rfl⟩
  | run hh he hx' hready =>
      rw [hsignal _ hh hx'] at hready
      exact absurd (hst.symm.trans hready) nofun

/-- A process on a queue waits after the step, unless it was woken. -/
theorem Inv.still_waiting {x : Proc} (h : Inv k r f) (hw : Waiting k on) (hk : KeepsQueues k e)
    (hp : p ∈ on q) (hno : ∀ m, Wakes k e m → p ∉ on m) (hx : Change k e k' p x) :
  x.state = .waiting ∧ (x.cause = (k.procs p).cause ∨ x.cause = .continued)
  := by
  refine h.waiting_change (hw.waiting p q hp) ?_ ?_ hx
  · intro hh
    by_contra hne
    exact hw.queues.notMem_of_alone waitNames (hk.handled p hh hne) q hp
  · intro m hm hon
    exact hno m hm (h.mem_of_onQueue hw hm hon)

/-- A queue after a step: it is the same, or all were woken, or a process was put at its front. -/
theorem Requeue.shape {on' : ProcId → List ProcId} (hr : Requeue k e k' on on') (q : ProcId) :
  on' q = on q ∨ (on' q = [] ∧ Wakes k e q) ∨ ∃ p, on' q = p :: on q ∧
    ((∃ pid, e = .waitpid pid ∧ Executes k p ∧ k.procTable pid = .proc q) ∨
      (Handles k e q ∧ (k.procs q).handled = some sigContinue ∧
        k.procTable (k.procs q).ppid = .proc p))
  := by
  cases hr with
  | same => exact .inl rfl
  | @join p q' pid he hex hpid hq' =>
      by_cases hqq : q = q'
      · subst hqq
        exact .inr (.inr ⟨p, Function.update_self _ _ _, .inl ⟨pid, he, hex, hq'⟩⟩)
      · exact .inl (Function.update_of_ne hqq _ _)
  | @wake q' hw =>
      by_cases hqq : q = q'
      · subst hqq
        exact .inr (.inl ⟨Function.update_self _ _ _, hw⟩)
      · exact .inl (Function.update_of_ne hqq _ _)
  | @continued p q' hh hsig hpar =>
      by_cases hqq : q = q'
      · subst hqq
        exact .inr (.inr ⟨p, Function.update_self _ _ _, .inr ⟨hh, hsig, hpar⟩⟩)
      · exact .inl (Function.update_of_ne hqq _ _)

/-- What is on the queues after a step was on them before, and not woken, or is put on one. -/
theorem Requeue.cases_mem {on' : ProcId → List ProcId} (hr : Requeue k e k' on on')
    (hp : p ∈ on' q) :
  (p ∈ on q ∧ ¬ Wakes k e q) ∨
    (k'.procs p).state = .waiting ∧ ¬ Wakes k e q ∧
      ((∃ pid, e = .waitpid pid ∧ 0 ≤ pid ∧ pid ≤ maxProc ∧ k.procTable pid = .proc q) ∨
        (Handles k e q ∧ (k'.procs p).cause = .continued))
  := by
  cases hr with
  | same hn => exact .inl ⟨hp, hn q⟩
  | @join m q' pid he hex hpid hq' hs =>
      subst he
      by_cases hqq : q = q'
      · subst hqq
        rw [Function.update_self, List.mem_cons] at hp
        rcases hp with rfl | hp
        · exact .inr ⟨hs, not_wakes nofun nofun nofun, .inl ⟨pid, rfl, hpid.1, hpid.2, hq'⟩⟩
        · exact .inl ⟨hp, not_wakes nofun nofun nofun⟩
      · rw [Function.update_of_ne hqq] at hp
        exact .inl ⟨hp, not_wakes nofun nofun nofun⟩
  | @wake q' hw =>
      by_cases hqq : q = q'
      · rw [hqq, Function.update_self] at hp
        cases hp
      · rw [Function.update_of_ne hqq] at hp
        exact .inl ⟨hp, fun hw' => hqq (wakes_unique hw' hw)⟩
  | @continued m q' hh hsig hpar hs =>
      have hno : ∀ n, ¬ Wakes k e n := by
        rintro n (⟨rfl, -⟩ | ⟨hh', hsig'⟩)
        · exact absurd hh (not_handles nofun nofun)
        · cases handles_unique hh hh'
          rw [hsig] at hsig'
          exact absurd hsig' (by decide)
      by_cases hqq : q = q'
      · subst hqq
        rw [Function.update_self, List.mem_cons] at hp
        rcases hp with rfl | hp
        · exact .inr ⟨hs.1, hno _, .inr ⟨hh, hs.2⟩⟩
        · exact .inl ⟨hp, hno _⟩
      · rw [Function.update_of_ne hqq] at hp
        exact .inl ⟨hp, hno _⟩

/-- Every step that keeps the queues keeps the invariant. -/
theorem Inv.waiting_step (h : Inv k r f) (hw : Waiting k on) (hk : KeepsQueues k e)
    (he : Effect k e k') :
  ∃ on', Requeue k e k' on on' ∧ Waiting k' on'
  := by
  obtain ⟨on', hr, hq⟩ := h.requeue hw hk he
  refine ⟨on', hr, hq, ?_, ?_⟩
  · intro p q hp
    rcases hr.cases_mem hp with ⟨hp, hn⟩ | ⟨hs, -⟩
    · refine (h.still_waiting hw hk hp ?_ (he.change p)).1
      intro m hm hpm
      cases hw.queues.one p q m hp hpm
      exact hn hm
    · exact hs
  · intro p q hp
    have hlost : Live k q → ¬ Recycles k e q → Live k' q := by
      intro hl hrec
      by_contra hn
      exact hrec (h.live_lost he hl hn)
    rcases hr.cases_mem hp with ⟨hp, -⟩ | ⟨-, -, ⟨pid, rfl, -, -, hpid⟩ | ⟨hh, -⟩⟩
    · apply hlost (hw.live p q hp)
      intro hrec
      have hnil := hw.queues.nil_of_alone waitNames (hk.recycle q hrec)
      rw [hnil] at hp
      cases hp
    · apply hlost (hk.waitpid pid q rfl hpid)
      rintro ⟨hev, -⟩
      cases hev
    · apply hlost (h.table.live_iff.mpr (h.places.handles_notMem hh))
      rintro ⟨rfl, -, -, hd⟩
      exact handles_dispatch hh hd

/-! ### At the start -/

/-- After boot one process is used, and no process waits. -/
theorem Booted.waiting (h : Booted k) :
  Waiting k fun _ => []
  := by
  obtain ⟨freelist, memory, tty, p, -, hsched⟩ := h.spawned
  obtain ⟨⟨-, h₀, -⟩, hk⟩ := schedProc_taken hsched
  have hwaits : k.waits =
      ((listsSet freelist memory).waits.init (.waitQ p)).init (.nextWaitQ p) := by
    rcases hk with rfl | ⟨fd, -, rfl⟩
    · rfl
    · rfl
  have hused : k.Used = fun q => q = p ∨ False := by
    funext q
    apply propext
    rw [or_false]
    rw [Kernel.Used, (schedProc_sameIds hsched).pid]
    by_cases hq : q = p
    · subst hq
      rw [Kernel.taken_self]
      exact ⟨fun _ => rfl, fun _ => h₀⟩
    · rw [Kernel.taken_of_ne hq]
      exact ⟨fun hne => absurd rfl hne, fun hqp => absurd hqp hq⟩
  have hempty : Links.Rings WNode.waitQ WNode.nextWaitQ (listsSet freelist memory).waits
      (fun _ => False) fun _ => [] :=
    ⟨nofun, fun _ _ => rfl, nofun, nofun, nofun⟩
  refine ⟨?_, nofun, nofun⟩
  rw [hused, Kernel.Queues, hwaits]
  exact hempty.init waitNames rfl nofun

/-- While no process has a signal to be handled, the queues are kept. -/
theorem keepsQueues_quiet (h : ∀ p, (k.procs p).handled = none)
    (hs : ∀ p, k.scan.map Prod.fst = some (.proc p) → (k.procs p).state ≠ .dead)
    (hw : ∀ pid p, e = .waitpid pid → k.procTable pid = .proc p → Live k p) :
  KeepsQueues k e
  := by
  constructor
  · exact hw
  · intro p _ hne
    exact absurd (h p) hne
  · intro p q _ hsig
    exact absurd ((h p).symm.trans hsig) nofun
  · rintro p ⟨-, -, ⟨save, hsc⟩, hd⟩
    exact absurd hd (hs p (by rw [hsc]; rfl))

end Process
