import Manos.Process.ExitQueues

/-!
# The steps of an exit

Every load and store of `wakeWaiting` in an exit keeps the wait queues, and brings the exit nearer
to its end: the wait queues are intact in every run whose steps keep them.
-/

namespace Process

open Exec Links

variable {e : Event} {p q r : ProcId} {l f : List ProcId}

namespace Exits

variable {m m' : Exits} {V : Links WNode} {on rest : ProcId → List ProcId}

/-! ### How far an exit is -/

/-- The step brings no exit farther from its end, and the one that takes it nearer. -/
structure Nearer (m : Exits) (e : Event) (m' : Exits) (rest rest' : ProcId → List ProcId) :
    Prop where
  le : ∀ r, (m.kernel.procs r).ctl = .unlink → (m'.kernel.procs r).ctl = .unlink →
    (m'.point r).left (rest' r) ≤ (m.point r).left (rest r)
  lt : ∀ r, e = .exit → m.Turns r → (m'.kernel.procs r).ctl = .unlink →
    (m'.point r).left (rest' r) < (m.point r).left (rest r)

/-- The exit of the running process goes on. -/
theorem nearer_goes {b : WakePoint} {l' : List ProcId} (hr : m.Turns r)
    (hp : m'.point = Function.update m.point r b)
    (hlt : b.left l' < (m.point r).left (rest r)) :
  Nearer m .exit m' rest (Function.update rest r l')
  := by
  constructor
  · intro q _ _
    by_cases hq : q = r
    · subst hq
      rw [hp, Function.update_self, Function.update_self]
      exact hlt.le
    · rw [hp, Function.update_of_ne hq, Function.update_of_ne hq]
  · intro q _ hq _
    cases Rp.proc.inj (hq.runs.rp.symm.trans hr.runs.rp)
    rw [hp, Function.update_self, Function.update_self]
    exact hlt

theorem nearer_same {b : WakePoint} (hr : m.Turns r)
    (hp : m'.point = Function.update m.point r b)
    (hlt : b.left (rest r) < (m.point r).left (rest r)) :
  Nearer m .exit m' rest rest
  := by
  have hnearer := nearer_goes hr hp hlt
  rwa [Function.update_eq_self] at hnearer

/-! ### Changes of a process -/

theorem calls_goes (K : Links WNode) (b : WakePoint) (hr : (m.kernel.procs r).ctl = .unlink) :
  ((m.withLinks K).goes r b).calls = Function.update m.calls r b.call
  := by
  funext q
  by_cases hq : q = r
  · subst hq
    rw [Function.update_self]
    unfold calls
    rw [point_goes]
    exact if_pos hr
  · rw [Function.update_of_ne hq]
    have hp : ((m.withLinks K).goes r b).point q = m.point q := Function.update_of_ne hq _ _
    unfold calls
    rw [hp]
    rfl

/-- Processes with the same pids are in the same table. -/
theorem live_of_pid (hpid : ∀ p, (m'.kernel.procs p).pid = (m.kernel.procs p).pid)
    (ht : m'.kernel.procTable = m.kernel.procTable) (hp : Live m.kernel p) :
  Live m'.kernel p
  := by
  rw [Live, hpid p, ht]
  exact hp

theorem used_of_pid (hpid : ∀ p, (m'.kernel.procs p).pid = (m.kernel.procs p).pid) :
  m'.kernel.Used = m.kernel.Used
  := by
  funext p
  rw [Kernel.Used, hpid p]
  rfl

theorem sets_field {γ : Type} (g : Proc → γ) {u : Proc → Proc}
    (hu : g (u (m.kernel.procs q)) = g (m.kernel.procs q)) (p : ProcId) :
  g ((m.sets q u).kernel.procs p) = g (m.kernel.procs p)
  := Kernel.setProc_field g hu p

/-- A process that stays where it is. -/
theorem goes_point (m : Exits) (r q : ProcId) (u : Proc → Proc) :
  (m.sets q u).goes r (m.point r) = m.sets q u
  := by
  unfold Exits.goes
  exact congrArg _ (Function.update_eq_self r m.point)

theorem sets_self (q : ProcId) (u : Proc → Proc) :
  (m.sets q u).kernel.procs q = u (m.kernel.procs q)
  := Kernel.setProc_self q u m.kernel

theorem sets_of_ne (hp : p ≠ q) (u : Proc → Proc) :
  (m.sets q u).kernel.procs p = m.kernel.procs p
  := Kernel.setProc_of_ne hp u m.kernel

namespace Queued

variable (h : Queued m V on rest)
include h

/-! ### The queues after a change -/

/-- The exit of the running process goes on in its loop. -/
theorem goes {K V' : Links WNode} {on' : ProcId → List ProcId} {b : WakePoint} {l' : List ProcId}
    (hi : Inv m.kernel l f) (hr : m.Turns r)
    (hrem : Removals .waitQ .nextWaitQ K V' m.kernel.Used on' (Function.update rest r l')
      (Function.update m.calls r b.call))
    (hmem : ∀ p q, p ∈ on' q → p ∈ on q) (hon : ∀ q, q ≠ r → on' q = on q)
    (hok : b.Ok r (on' r) l') (hheld : ∀ q, b.held = some q → m.Holds r q ∨ q ∈ on r)
    (hoff : ∀ q save, b = .ready q save → ∀ j, q ∉ on' j) :
  Queued ((m.withLinks K).goes r b) V' on' (Function.update rest r l')
  := by
  have hpoint : ∀ q, q ≠ r → ((m.withLinks K).goes r b).point q = m.point q := fun q hq =>
    Function.update_of_ne hq _ _
  have hself : ((m.withLinks K).goes r b).point r = b := point_goes b
  -- who makes a process ready did so before, or takes it off the queue of the exit
  have hholds : ∀ r' q, Holds ((m.withLinks K).goes r b) r' q →
      m.Holds r' q ∨ (r' = r ∧ q ∈ on r) := by
    rintro r' q ⟨hc, hp⟩
    by_cases hr' : r' = r
    · subst hr'
      rw [hself] at hp
      exact (hheld q hp).imp_right fun hq => ⟨rfl, hq⟩
    · rw [hpoint r' hr'] at hp
      exact .inl ⟨hc, hp⟩
  constructor
  · rw [calls_goes K b hr.ctl]
    exact hrem
  · exact fun p q hp => h.waiting p q (hmem p q hp)
  · exact fun p q hp => h.live p q (hmem p q hp)
  · intro r' q hh
    rcases hholds r' q hh with hh | ⟨-, hq⟩
    · exact h.held r' q hh
    · exact h.waiting q r hq
  · intro r' r'' q hh hh'
    rcases hholds r' q hh with hr₁ | ⟨heq, hq⟩
    · rcases hholds r'' q hh' with hr₂ | ⟨heq', hq⟩
      · exact h.single r' r'' q hr₁ hr₂
      · rw [heq', (h.holds_on hr₁ hq).1]
    · rcases hholds r'' q hh' with hr₂ | ⟨heq', -⟩
      · rw [heq, (h.holds_on hr₂ hq).1]
      · rw [heq, heq']
  · intro r' q save hc hp j hj
    by_cases hr' : r' = r
    · subst hr'
      rw [hself] at hp
      exact hoff q save hp j hj
    · rw [hpoint r' hr'] at hp
      exact h.off r' q save hc hp j (hmem q j hj)
  · intro r' hc
    by_cases hr' : r' = r
    · subst hr'
      rw [hself, Function.update_self]
      exact hok
    · rw [hpoint r' hr', Function.update_of_ne hr', hon r' hr']
      exact h.points r' hc
  · rintro r' ⟨hc, hp⟩
    by_cases hr' : r' = r
    · subst hr'
      refine ⟨hi.live_runs hr.runs.rp, fun hd => ?_⟩
      have hy := (hi.states.running r' hr.runs.rp hr.runs.switching).1 hd
      exact absurd (hr.ctl.symm.trans hy) (by decide)
    · rw [hpoint r' hr'] at hp
      exact h.reading r' ⟨hc, hp⟩

/-- A process that is on no queue, and that no exit makes ready, becomes ready. -/
theorem wakes (hoff : ∀ j, q ∉ on j) (hno : ∀ r, ¬ m.Holds r q) :
  Queued (m.sets q fun x => { x with state := .ready }) V on rest
  := by
  generalize hm : (m.sets q fun x => { x with state := .ready }) = m'
  have hctl : ∀ p, (m'.kernel.procs p).ctl = (m.kernel.procs p).ctl :=
    hm ▸ sets_field Proc.ctl rfl
  have hpid : ∀ p, (m'.kernel.procs p).pid = (m.kernel.procs p).pid :=
    hm ▸ sets_field Proc.pid rfl
  have hstate : ∀ p, p ≠ q → (m'.kernel.procs p).state = (m.kernel.procs p).state :=
    fun p hp => hm ▸ congrArg Proc.state (sets_of_ne hp _)
  have hready : (m'.kernel.procs q).state = .ready := hm ▸ congrArg Proc.state (sets_self q _)
  have hpoint : m'.point = m.point := hm ▸ rfl
  have hlive : ∀ p, Live m.kernel p → Live m'.kernel p := fun p => live_of_pid hpid (hm ▸ rfl)
  have hcalls : m'.calls = m.calls := by
    funext r
    rw [calls, calls, hctl r, hpoint]
  have hused : m'.kernel.Used = m.kernel.Used := used_of_pid hpid
  have hlinks : m'.links = m.links := hm ▸ rfl
  have hholds : ∀ r p, m'.Holds r p → m.Holds r p := fun r p hr =>
    ⟨(hctl r).symm.trans hr.1, hpoint ▸ hr.2⟩
  constructor
  · rw [hcalls, hused, hlinks]
    exact h.removals
  · intro p j hp
    rw [hstate p]
    · exact h.waiting p j hp
    · rintro rfl
      exact hoff j hp
  · exact fun p j hp => hlive j (h.live p j hp)
  · intro r p hr
    rw [hstate p]
    · exact h.held r p (hholds r p hr)
    · rintro rfl
      exact hno r (hholds r p hr)
  · exact fun r r' p hr hr' => h.single r r' p (hholds r p hr) (hholds r' p hr')
  · exact fun r p save hc hp => h.off r p save ((hctl r).symm.trans hc) (hpoint ▸ hp)
  · exact fun r hc => hpoint ▸ h.points r ((hctl r).symm.trans hc)
  · rintro r ⟨hc, hp⟩
    obtain ⟨hl, hd⟩ := h.reading r ⟨(hctl r).symm.trans hc, hpoint ▸ hp⟩
    refine ⟨hlive r hl, fun hd' => ?_⟩
    by_cases hrq : r = q
    · rw [hrq] at hd'
      exact absurd (hready.symm.trans hd') (by decide)
    · exact hd ((hstate r hrq).symm.trans hd')

/-- The running process begins its exit, or comes out of it. -/
theorem moves {c : Ctl} {b : WakePoint} (hcalls : m.calls r = none)
    (hc : c = .unlink → b = .first) :
  Queued ((m.sets r fun x => { x with ctl := c }).goes r b) V on rest
  := by
  generalize hm : ((m.sets r fun x => { x with ctl := c }).goes r b) = m'
  have hkernel : m'.kernel = (m.sets r fun x => { x with ctl := c }).kernel := hm ▸ rfl
  have hstate : ∀ p, (m'.kernel.procs p).state = (m.kernel.procs p).state :=
    hkernel ▸ sets_field Proc.state rfl
  have hpid : ∀ p, (m'.kernel.procs p).pid = (m.kernel.procs p).pid :=
    hkernel ▸ sets_field Proc.pid rfl
  have hctl : ∀ p, p ≠ r → (m'.kernel.procs p).ctl = (m.kernel.procs p).ctl :=
    fun p hp => hkernel ▸ congrArg Proc.ctl (sets_of_ne hp _)
  have hself : (m'.kernel.procs r).ctl = c := hkernel ▸ congrArg Proc.ctl (sets_self r _)
  have hpoint : ∀ p, p ≠ r → m'.point p = m.point p := fun p hp => hm ▸ Function.update_of_ne hp _ _
  have hfirst : (m'.kernel.procs r).ctl = .unlink → m'.point r = .first := by
    intro hu
    rw [← hc (hself.symm.trans hu), ← hm]
    exact point_goes b
  have hlive : ∀ p, Live m.kernel p → Live m'.kernel p := fun p => live_of_pid hpid (hm ▸ rfl)
  have hused : m'.kernel.Used = m.kernel.Used := used_of_pid hpid
  have hlinks : m'.links = m.links := hm ▸ rfl
  have hcalls' : m'.calls = m.calls := by
    funext p
    by_cases hp : p = r
    · subst hp
      rw [hcalls, calls]
      split_ifs with hu
      · rw [hfirst hu]
        rfl
      · rfl
    · rw [calls, calls, hctl p hp, hpoint p hp]
  -- the process itself is at the start of its exit, or in none
  have hother : ∀ p, (m'.kernel.procs p).ctl = .unlink → m'.point p ≠ .first →
      (m.kernel.procs p).ctl = .unlink ∧ m'.point p = m.point p := by
    intro p hu hp
    have hpr : p ≠ r := by
      rintro rfl
      exact hp (hfirst hu)
    exact ⟨(hctl p hpr).symm.trans hu, hpoint p hpr⟩
  have hholds : ∀ r' q, m'.Holds r' q → m.Holds r' q := by
    rintro r' q ⟨hu, hq⟩
    obtain ⟨hu', hp⟩ := hother r' hu (by rintro hp; rw [hp] at hq; cases hq)
    exact ⟨hu', hp ▸ hq⟩
  constructor
  · rw [hcalls', hused, hlinks]
    exact h.removals
  · exact fun p j hp => (hstate p).trans (h.waiting p j hp)
  · exact fun p j hp => hlive j (h.live p j hp)
  · exact fun r' q hr => (hstate q).trans (h.held r' q (hholds r' q hr))
  · exact fun r' r'' q hr hr' => h.single r' r'' q (hholds r' q hr) (hholds r'' q hr')
  · intro r' q save hu hq
    obtain ⟨hu', hp⟩ := hother r' hu (by rw [hq]; rintro ⟨⟩)
    exact h.off r' q save hu' (hp.symm.trans hq)
  · intro r' hu
    by_cases hp : m'.point r' = .first
    · rw [hp]
      trivial
    · obtain ⟨hu', hp⟩ := hother r' hu hp
      exact hp ▸ h.points r' hu'
  · rintro r' ⟨hu, hq⟩
    obtain ⟨hu', hp⟩ := hother r' hu (by rintro hp; rw [hp] at hq; exact hq)
    obtain ⟨hl, hd⟩ := h.reading r' ⟨hu', hp ▸ hq⟩
    exact ⟨hlive r' hl, fun hd' => hd ((hstate r').symm.trans hd')⟩

/-- The process that runs is on no queue, and its node is linked to itself. -/
theorem alone_runs (hi : Inv m.kernel l f) (hr : Runs m.kernel r) :
  m.links.Alone (.nextWaitQ r)
  := by
  have hst := (hi.states.running r hr.rp hr.switching).2.2 hr.pendsv
  have halone := h.removals.rings.alone r (hi.used_of_live (hi.live_runs hr.rp)) fun q hq =>
    hst (h.waiting r q hq)
  have hsame := h.removals.completed.sameAt (h.free_node hst)
  exact halone.frame ⟨hsame.1.symm, hsame.2.symm⟩

/-- A queue holds no more processes than there are. -/
theorem length_le (q : ProcId) :
  (on q).length ≤ maxProc
  := by
  by_cases hq : m.kernel.Used q
  · have hnodup := (List.nodup_cons.mp (h.removals.rings.ring q hq).nodup).2
    have hcard := (List.Nodup.of_map _ hnodup).length_le_card
    rwa [Fintype.card_fin] at hcard
  · rw [h.removals.rings.unused q hq]
    exact Nat.zero_le _

/-- The exit goes on, and the queues are as before. -/
theorem goes_same {b : WakePoint} (l' : List ProcId) (hi : Inv m.kernel l f) (hr : m.Turns r)
    (hp : (m.point r).call = none) (hb : b.call = none ∧ b.held = none) (hok : b.Ok r (on r) l') :
  Queued (m.goes r b) V on (Function.update rest r l')
  := by
  have hcall : m.calls r = none := by
    rw [calls, if_pos hr.ctl, hp]
  refine h.goes (K := m.links) hi hr ?_ (fun _ _ => id) (fun _ _ => rfl) hok ?_ ?_
  · rw [hb.1, ← hcall, Function.update_eq_self]
    exact h.removals.setRest hcall l'
  · rw [hb.2]
    exact fun q hq => absurd hq (Option.some_ne_none q).symm
  · rintro q save rfl
    exact absurd hb.2 (Option.some_ne_none q)

/-! ### Loads and stores -/

/-- A step of `listUnlinkAndInit`, in the loop of `wakeWaiting`. -/
theorem unlink {save : WNode} {a b : UnlinkPoint WNode} {K : Links WNode}
    (hi : Inv m.kernel l f) (hr : m.Turns r) (hp : m.point r = .unlink q save a)
    (hs : unlinkStep (.nextWaitQ q) a m.links = (some b, K)) :
  ∃ V' on', Queued ((m.withLinks K).goes r (.unlink q save b)) V' on' rest
  := by
  have hc : m.calls r = some (q, a) := calls_eq_some.mpr ⟨hr.ctl, save, hp⟩
  have hsave : save = ((rest r).map WNode.nextWaitQ).headD (.waitQ r) := by
    have hok := h.points r hr.ctl
    rw [hp] at hok
    exact hok
  have hgoes : ∀ {V' : Links WNode} {on' : ProcId → List ProcId},
      Removals .waitQ .nextWaitQ K V' m.kernel.Used on' rest
        (Function.update m.calls r (some (q, b))) →
      (∀ p q, p ∈ on' q → p ∈ on q) → (∀ q, q ≠ r → on' q = on q) →
      ∃ V' on', Queued ((m.withLinks K).goes r (.unlink q save b)) V' on' rest := by
    intro V' on' hrem hmem hon
    refine ⟨V', on', ?_⟩
    rw [← Function.update_eq_self r rest] at hrem ⊢
    refine h.goes hi hr hrem hmem hon hsave ?_ (by rintro _ _ ⟨⟩)
    rintro _ ⟨⟩
    exact .inl (holds_of_calls hc).1
  cases a with
  | prev =>
      cases hs
      exact hgoes (h.removals.readPrev waitNames hc) (fun _ _ => id) fun _ _ => rfl
  | next p =>
      cases hs
      exact hgoes (h.removals.readNext waitNames hc) (fun _ _ => id) fun _ _ => rfl
  | setPrev p n =>
      cases hs
      obtain ⟨l₁, hl, hrem⟩ := h.removals.firstStore waitNames hc
      refine hgoes hrem ?_ fun q' hq' => Function.update_of_ne hq' _ _
      intro p' q' hp'
      by_cases hq' : q' = r
      · subst hq'
        rw [Function.update_self, List.mem_append] at hp'
        rw [hl, List.mem_append, List.mem_cons]
        exact hp'.imp_right .inr
      · rwa [Function.update_of_ne hq'] at hp'
  | setNext p n =>
      cases hs
      exact hgoes (h.removals.secondStore waitNames hc) (fun _ _ => id) fun _ _ => rfl
  | initNext p n =>
      cases hs
      exact hgoes (h.removals.thirdStore waitNames hc) (fun _ _ => id) fun _ _ => rfl
  | initPrev p => cases hs

/-- `listUnlinkAndInit` returns, in the loop of `wakeWaiting`. -/
theorem unlinked {save : WNode} {a : UnlinkPoint WNode} {K : Links WNode}
    (hi : Inv m.kernel l f) (hr : m.Turns r) (hp : m.point r = .unlink q save a)
    (hs : unlinkStep (.nextWaitQ q) a m.links = (none, K)) :
  Queued ((m.withLinks K).goes r (.ready q save)) V on rest
  := by
  obtain ⟨p, rfl, rfl⟩ := unlinkStep_none hs
  have hc : m.calls r = some (q, .initPrev p) := calls_eq_some.mpr ⟨hr.ctl, save, hp⟩
  have hsave : save = ((rest r).map WNode.nextWaitQ).headD (.waitQ r) := by
    have hok := h.points r hr.ctl
    rw [hp] at hok
    exact hok
  obtain ⟨l₁, hl, -⟩ := h.removals.fits r q _ hc
  have hrem := h.removals.lastStore waitNames hc
  rw [← Function.update_eq_self r rest] at hrem ⊢
  refine h.goes hi hr hrem (fun _ _ => id) (fun _ _ => rfl) ⟨hsave, l₁, hl⟩ ?_ ?_
  · rintro _ ⟨⟩
    exact .inl (holds_of_calls hc).1
  · rintro _ _ ⟨⟩
    exact (h.removals.off r q _ hc trivial).2

/-- An exit makes a process ready, and goes on with the next one. -/
theorem readied {save : WNode} (hi : Inv m.kernel l f) (hr : m.Turns r)
    (hp : m.point r = .ready q save) :
  Queued ((m.sets q fun x => { x with state := .ready }).goes r
    (if save = .waitQ r then .own .prev else .save save)) V on
      (Function.update rest r (rest r).tail)
  := by
  have hok := h.points r hr.ctl
  rw [hp] at hok
  obtain ⟨hsave, l₁, hl⟩ := hok
  have hcall : (m.point r).call = none := by
    rw [hp]
    rfl
  generalize hb : (if save = .waitQ r then .own .prev else .save save : WakePoint) = b
  have hgoes : b.call = none ∧ b.held = none ∧ b.Ok r (on r) (rest r).tail := by
    rw [← hb]
    split_ifs with hw
    · exact ⟨rfl, rfl, trivial⟩
    · refine ⟨rfl, rfl, ?_⟩
      cases hrest : rest r with
      | nil =>
          rw [hrest] at hsave
          exact absurd hsave hw
      | cons x t =>
          rw [hrest] at hsave hl
          exact ⟨l₁, x, hl, hsave⟩
  have hq := h.goes_same _ hi hr hcall ⟨hgoes.1, hgoes.2.1⟩ hgoes.2.2
  rw [← sets_goes]
  refine hq.wakes (h.off r q save hr.ctl hp) ?_
  rintro r' ⟨hc, hh⟩
  by_cases hr' : r' = r
  · subst hr'
    rw [point_goes, hgoes.2.1] at hh
    cases hh
  · have hpoint : (m.goes r b).point r' = m.point r' := Function.update_of_ne hr' _ _
    rw [hpoint] at hh
    exact hr' (h.single r' r q ⟨hc, hh⟩ ⟨hr.ctl, by rw [hp]; rfl⟩)

/-- The first entry of the queue is read. -/
theorem enter (hi : Inv m.kernel l f) (hr : m.Turns r) (hp : m.point r = .first)
    (hn : m.links.next (.waitQ r) ≠ .waitQ r) :
  ∃ q t, on r = q :: t ∧ m.links.next (.waitQ r) = .nextWaitQ q ∧
    Queued (m.goes r (.save (m.links.next (.waitQ r)))) V on (Function.update rest r t)
  := by
  have hcall : (m.point r).call = none := by
    rw [hp]
    rfl
  have hnone : ∀ i p n, m.calls r ≠ some (i, .setNext p n) := by
    rw [calls, if_pos hr.ctl, hcall]
    exact fun _ _ _ => (Option.some_ne_none _).symm
  have hfirst := h.removals.first waitNames hnone (hi.used_of_live (hi.live_runs hr.runs.rp))
  cases hl : on r with
  | nil =>
      rw [hl] at hfirst
      exact absurd hfirst hn
  | cons q t =>
      rw [hl] at hfirst
      refine ⟨q, t, rfl, hfirst, h.goes_same t hi hr hcall ⟨rfl, rfl⟩ ?_⟩
      exact ⟨[], q, hl, hfirst⟩

/-- `save` is read. -/
theorem saves (hi : Inv m.kernel l f) (hr : m.Turns r) (hp : m.point r = .save (.nextWaitQ q)) :
  Queued (m.goes r (.unlink q (m.links.next (.nextWaitQ q)) .prev)) V on rest
  := by
  have hok := h.points r hr.ctl
  rw [hp] at hok
  obtain ⟨l₁, q, hl, ⟨⟩⟩ := hok
  have hcall : m.calls r = none := by
    rw [calls, if_pos hr.ctl, hp]
    rfl
  have hnone : ∀ i p n, m.calls r ≠ some (i, .setNext p n) := by
    rw [hcall]
    exact fun _ _ _ => (Option.some_ne_none _).symm
  have hsave := (h.removals.neighbours waitNames hnone hl).2
  have hrem := h.removals.begins hcall hl
  rw [← Function.update_eq_self r rest] at hrem ⊢
  refine h.goes (K := m.links) hi hr hrem (fun _ _ => id) (fun _ _ => rfl) hsave ?_
    (by rintro _ _ ⟨⟩)
  rintro _ ⟨⟩
  right
  rw [hl]
  exact List.mem_append_right _ List.mem_cons_self

/-- A step of `listUnlinkAndInit(&p->nextWaitQ)` after the loop changes no links. -/
theorem own_step {a : UnlinkPoint WNode} {u : Option (UnlinkPoint WNode)} {K : Links WNode}
    (hi : Inv m.kernel l f) (hr : m.Turns r) (hp : m.point r = .own a)
    (hs : unlinkStep (.nextWaitQ r) a m.links = (u, K)) :
  K = m.links ∧ ∀ b, u = some b → b.Self (.nextWaitQ r)
  := by
  have hok := h.points r hr.ctl
  rw [hp] at hok
  exact UnlinkPoint.Self.step hok (h.alone_runs hi hr.runs) hs

/-- Every step keeps the queues, and brings the exit that takes it nearer to its end. -/
theorem step (hi : Inv m.kernel l f) (hk : m.KeepsQueues e) (he : Effect m e m') :
  ∃ V' on' rest', Queued m' V' on' rest' ∧ Nearer m e m' rest rest'
  := by
  cases he with
  | other he hx =>
      obtain ⟨V', on', hq⟩ := h.other hi hk he hx
      refine ⟨V', on', rest, hq, fun r _ _ => le_rfl, ?_⟩
      intro r hev hr _
      exact absurd hr.ctl (hx hev r hr.runs).2
  | @begin r hr =>
      have hcall : m.calls r = none := by
        rw [calls, if_neg]
        rw [hr.ctl]
        decide
      refine ⟨V, on, rest, h.moves hcall fun _ => rfl, ?_, ?_⟩
      · intro q hc _
        have hq : q ≠ r := by
          rintro rfl
          exact absurd (hr.ctl.symm.trans hc) (by decide)
        have hpoint : ((m.sets r fun x => { x with ctl := .unlink }).goes r .first).point q =
            m.point q := Function.update_of_ne hq _ _
        rw [hpoint]
      · intro q _ hq _
        cases Rp.proc.inj (hq.runs.rp.symm.trans hr.rp)
        exact absurd (hr.ctl.symm.trans hq.ctl) (by decide)
  | @empty r hr hp hn =>
      have hcall : (m.point r).call = none := by
        rw [hp]
        rfl
      refine ⟨V, on, _, h.goes_same (rest r) hi hr hcall ⟨rfl, rfl⟩ trivial,
        nearer_goes hr rfl ?_⟩
      rw [hp]
      change 6 < 8 * maxProc + 7
      decide
  | @first r hr hp hn =>
      obtain ⟨q, t, hl, -, hq⟩ := h.enter hi hr hp hn
      refine ⟨V, on, _, hq, nearer_goes hr rfl ?_⟩
      have hlength := h.length_le r
      rw [hl, List.length_cons] at hlength
      rw [hp]
      change 8 * t.length + 14 < 8 * maxProc + 7
      omega
  | @save r q hr hp =>
      refine ⟨V, on, rest, h.saves hi hr hp, ?_⟩
      refine nearer_same hr rfl ?_
      rw [hp]
      change 8 * (rest r).length + 6 + 7 < 8 * (rest r).length + 14
      omega
  | @unlink r q save a b K hr hp hs =>
      obtain ⟨V', on', hq⟩ := h.unlink hi hr hp hs
      refine ⟨V', on', rest, hq, ?_⟩
      refine nearer_same hr rfl ?_
      have hleft := unlinkStep_left hs
      rw [hp]
      change 8 * (rest r).length + b.left + 7 < 8 * (rest r).length + a.left + 7
      omega
  | @unlinked r q save a K hr hp hs =>
      refine ⟨V, on, rest, h.unlinked hi hr hp hs, ?_⟩
      refine nearer_same hr rfl ?_
      obtain ⟨p, rfl, -⟩ := unlinkStep_none hs
      rw [hp]
      change 8 * (rest r).length + 7 < 8 * (rest r).length + 1 + 7
      omega
  | @ready r q save hr hp =>
      refine ⟨V, on, _, h.readied hi hr hp, nearer_goes hr rfl ?_⟩
      have hok := h.points r hr.ctl
      rw [hp] at hok ⊢
      change _ < 8 * (rest r).length + 7
      split_ifs with hw
      · change 6 < _
        omega
      · cases hrest : rest r with
        | nil =>
            rw [hrest] at hok
            exact absurd hok.1 hw
        | cons x t =>
            change 8 * t.length + 14 < 8 * (t.length + 1) + 7
            omega
  | @own r a b K hr hp hs =>
      obtain ⟨rfl, hself⟩ := h.own_step hi hr hp hs
      have hcall : (m.point r).call = none := by
        rw [hp]
        rfl
      refine ⟨V, on, _, h.goes_same (rest r) hi hr hcall ⟨rfl, rfl⟩ (hself b rfl),
        nearer_goes hr rfl ?_⟩
      have hleft := unlinkStep_left hs
      rw [hp]
      change b.left < a.left
      omega
  | @left r a K hr hp hs =>
      obtain ⟨rfl, -⟩ := h.own_step hi hr hp hs
      have hcall : m.calls r = none := by
        rw [calls, if_pos hr.ctl, hp]
        rfl
      have hq := h.moves (c := .free 0) (b := m.point r) hcall fun hc => absurd hc (by decide)
      rw [goes_point] at hq
      refine ⟨V, on, rest, hq, fun _ _ _ => le_rfl, ?_⟩
      intro q _ hq hc
      have hqr : q = r := Rp.proc.inj (hq.runs.rp.symm.trans hr.runs.rp)
      have hfree : ((m.sets r fun x => { x with ctl := .free 0 }).kernel.procs r).ctl = .free 0 :=
        congrArg Proc.ctl (sets_self r _)
      rw [hqr] at hc
      exact absurd (hfree.symm.trans hc) (by decide)

/-- An exit in `wakeWaiting` can go on. -/
theorem goes_on (hr : m.Turns r) :
  ∃ m', Step m .exit m'
  := by
  have hok := h.points r hr.ctl
  cases hp : m.point r with
  | first =>
      by_cases hn : m.links.next (.waitQ r) = .waitQ r
      · exact ⟨_, step_empty hr hp hn⟩
      · exact ⟨_, step_first hr hp hn⟩
  | save pos =>
      rw [hp] at hok
      obtain ⟨l₁, q, -, rfl⟩ := hok
      exact ⟨_, step_save hr hp⟩
  | unlink q save a =>
      obtain ⟨u, K, hs⟩ : ∃ u K, unlinkStep (.nextWaitQ q) a m.links = (u, K) := ⟨_, _, rfl⟩
      cases u with
      | some b => exact ⟨_, step_unlink hr hp hs⟩
      | none => exact ⟨_, step_unlinked hr hp hs⟩
  | ready q save => exact ⟨_, step_ready hr hp⟩
  | own a =>
      obtain ⟨u, K, hs⟩ : ∃ u K, unlinkStep (.nextWaitQ r) a m.links = (u, K) := ⟨_, _, rfl⟩
      cases u with
      | some b => exact ⟨_, step_own hr hp hs⟩
      | none => exact ⟨_, step_left hr hp hs⟩

/-- `wakeWaiting` of a process whose exit has read no entry makes those ready that wait for it. -/
theorem wakeWaiting (hp : m.kernel.Used p) (hr : ¬ m.Reads p) :
  ∃ k', Process.wakeWaiting p m.kernel = .done () k' ∧ ∀ q, k'.procs q = m.kernel.procs q ∨
    ((m.kernel.procs q).state = .waiting ∧ k'.procs q = { m.kernel.procs q with state := .ready })
  := by
  have hring := h.removals.rings.ring p hp
  have hfree := (h.resting hp hr).free (on p) hring
  have hring' : m.links.Ring (.waitQ p) ((on p).map .nextWaitQ) := hring.frame fun y hy =>
    have hsame := h.removals.completed.sameAt (hfree y hy)
    ⟨hsame.1.symm, hsame.2.symm⟩
  refine ⟨_, wakeWaiting_ring hring', fun q => ?_⟩
  by_cases hq : q ∈ on p
  · exact .inr ⟨h.waiting q p hq, if_pos hq⟩
  · exact .inl (if_neg hq)

end Queued

/-! ### The wait queues are intact -/

/-- After boot no exit has begun. -/
theorem Booted.queued (h : m.Booted) :
  Queued m m.links (fun _ => []) fun _ => []
  := by
  have hctl : ∀ r, (m.kernel.procs r).ctl ≠ .unlink := by
    intro r hr
    rw [(Process.Booted.user h r).1] at hr
    cases hr
  have hcalls : m.calls = fun _ => none := funext fun r => if_neg (hctl r)
  have hw := Process.Booted.waiting h
  constructor
  · rw [hcalls]
    exact ⟨hw.queues, ⟨Settled.of_none _, Settled.of_none _⟩, by rintro _ _ _ ⟨⟩, by rintro _ _ _ ⟨⟩,
      by rintro _ _ _ _ _ ⟨⟩⟩
  · exact hw.waiting
  · exact hw.live
  · exact fun r q hr => absurd hr.1 (hctl r)
  · exact fun r r' q hr => absurd hr.1 (hctl r)
  · exact fun r q save hc => absurd hc (hctl r)
  · exact fun r hc => absurd hc (hctl r)
  · exact fun r hr => absurd hr.1 (hctl r)

theorem queued_reachable {m₀ : Exits} (h₀ : m₀.Booted) (h : Run.Reach Step KeepsQueues m₀ m) :
  m.Ok ∧ ∃ V on rest, Queued m V on rest
  := by
  refine h.invariant (P := fun m => m.Ok ∧ ∃ V on rest, Queued m V on rest)
    ⟨?_, _, _, _, h₀.queued⟩ ?_
  · exact ok_reachable h₀ (Run.Reach.refl m₀)
  · rintro t e t' ⟨hok, V, on, rest, hq⟩ hk hs
    refine ⟨hok.step hs.effect, ?_⟩
    obtain ⟨l, f, hi⟩ := hok
    obtain ⟨V', on', rest', hq', -⟩ := hq.step hi hk hs.effect
    exact ⟨V', on', rest', hq'⟩

/-- A run in which the exit of `r` is in `wakeWaiting` all the time, or in the `listUnlinkAndInit`
after it, and takes `n` steps. -/
inductive Takes (r : ProcId) (m : Exits) : ℕ → Exits → Prop where
  | refl (hc : (m.kernel.procs r).ctl = .unlink) : Takes r m 0 m
  | turn {n : ℕ} {t t' : Exits} (h : Takes r m n t) (hk : KeepsQueues t .exit) (hr : t.Turns r)
      (hs : Step t .exit t') (hc : (t'.kernel.procs r).ctl = .unlink) : Takes r m (n + 1) t'
  | other {n : ℕ} {t t' : Exits} {e : Event} (h : Takes r m n t) (hk : KeepsQueues t e)
      (hr : ¬ (e = .exit ∧ t.Turns r)) (hs : Step t e t')
      (hc : (t'.kernel.procs r).ctl = .unlink) : Takes r m n t'

theorem Takes.ctl {n : ℕ} (h : Takes r m n m') :
  (m'.kernel.procs r).ctl = .unlink
  := by
  cases h with
  | refl hc => exact hc
  | turn h hk hr hs hc => exact hc
  | other h hk hr hs hc => exact hc

/-- The steps that were taken, and those that are left. -/
theorem Queued.takes {n : ℕ} (h : Queued m V on rest) (hok : m.Ok) (hrun : Takes r m n m') :
  m'.Ok ∧ ∃ V' on' rest', Queued m' V' on' rest' ∧
    n + (m'.point r).left (rest' r) ≤ (m.point r).left (rest r)
  := by
  induction hrun with
  | refl => exact ⟨hok, V, on, rest, h, by omega⟩
  | turn hrun hk hr hs hc ih =>
      obtain ⟨hok', V', on', rest', hq, hle⟩ := ih
      refine ⟨hok'.step hs.effect, ?_⟩
      obtain ⟨l, f, hi⟩ := hok'
      obtain ⟨V'', on'', rest'', hq', hnearer⟩ := hq.step hi hk hs.effect
      have hlt := hnearer.lt r rfl hr hc
      exact ⟨V'', on'', rest'', hq', by omega⟩
  | other hrun hk hr hs hc ih =>
      obtain ⟨hok', V', on', rest', hq, hle⟩ := ih
      refine ⟨hok'.step hs.effect, ?_⟩
      obtain ⟨l, f, hi⟩ := hok'
      obtain ⟨V'', on'', rest'', hq', hnearer⟩ := hq.step hi hk hs.effect
      have hle' := hnearer.le r hrun.ctl hc
      exact ⟨V'', on'', rest'', hq', by omega⟩

/-- In every state of a run whose steps keep the queues: when the exits that have begun to take a
process off a queue have made the rest of their stores, the node of a process is linked to itself or
on exactly one queue of a process in the table, and every queue is well formed; `wakeWaiting` of an
abort or a stop returns, and makes only processes ready that waited; that of an exit can go on,
makes only processes ready that wait, and ends after at most `8 * maxProc + 7` steps of its own,
whatever comes in between. -/
theorem queues_intact {m₀ m : Exits} (h₀ : m₀.Booted) (h : Run.Reach Step KeepsQueues m₀ m) :
  (∃ V, Completed .nextWaitQ m.calls m.links V ∧
    ((∀ r q a, m.calls r = some (q, a) → ¬ a.Begun) → V = m.links) ∧
    (∀ p, m.kernel.Used p → V.Alone (.nextWaitQ p) ∨
      ∃! q, Live m.kernel q ∧ V.Reaches (.waitQ q) (.nextWaitQ p)) ∧
    ∀ p, m.kernel.Used p → ∃ l : List ProcId, V.Ring (.waitQ p) (l.map .nextWaitQ)) ∧
  (∀ p, m.kernel.Used p → ¬ m.Reads p →
    ∃ k', wakeWaiting p m.kernel = .done () k' ∧ ∀ q, k'.procs q = m.kernel.procs q ∨
      ((m.kernel.procs q).state = .waiting ∧
        k'.procs q = { m.kernel.procs q with state := .ready })) ∧
  (∀ r, m.Turns r → ∃ m', Step m .exit m') ∧
  (∀ q, m.Readies .exit q → (m.kernel.procs q).state = .waiting) ∧
  ∀ r n m', m.point r = .first → Takes r m n m' → n ≤ 8 * maxProc + 7
  := by
  obtain ⟨hok, V, on, rest, hq⟩ := queued_reachable h₀ h
  obtain ⟨l, f, hi⟩ := hok
  have hrings := hq.removals.rings
  refine ⟨⟨V, hq.removals.completed, ?_, ?_, fun p hp => ⟨on p, hrings.ring p hp⟩⟩,
    fun p hp hr => hq.wakeWaiting hp hr, fun r hr => hq.goes_on hr, ?_, ?_⟩
  · exact hq.removals.completed.eq_of_not_begun
  · intro p hp
    by_cases hon : ∃ q, p ∈ on q
    · obtain ⟨q, hpq⟩ := hon
      have hl := hq.live p q hpq
      right
      refine ⟨q, ⟨hl, (hrings.reaches_iff waitNames (hi.used_of_live hl)).mpr hpq⟩, ?_⟩
      rintro j ⟨hlj, hj⟩
      have hpj := (hrings.reaches_iff waitNames (hi.used_of_live hlj)).mp hj
      exact hrings.one p j q hpj hpq
    · left
      exact hrings.alone p hp fun q hpq => hon ⟨q, hpq⟩
  · rintro q ⟨-, r, save, hr, hp⟩
    refine hq.held r q ⟨hr.ctl, ?_⟩
    rw [hp]
    rfl
  · intro r n m' hp hrun
    obtain ⟨-, V', on', rest', -, hle⟩ := hq.takes ⟨l, f, hi⟩ hrun
    rw [hp] at hle
    change _ ≤ 8 * maxProc + 7 at hle
    omega

/-- The step keeps the queues, as far as can be computed: it waits for a process that no exit takes
others off; it handles no signal, or one but `SigContinue` of a process that is on no queue, is not
in `wakeWaiting` and that no exit makes ready; and it recycles no process that others wait for. -/
def keeps (m : Exits) (e : Event) : Bool :=
  (m.kernel.handles e).all (fun p => (m.kernel.procs p).handled = none ∨
    ((m.kernel.procs p).handled ≠ some sigContinue ∧ m.links.Alone (.nextWaitQ p) ∧
      ((m.kernel.procs p).handled = some sigAlarm ∨ (m.kernel.procs p).ctl ≠ .unlink) ∧
        ∀ r, (m.point r).held ≠ some p)) &&
    decide (∀ p, m.kernel.scan.map Prod.fst = some (.proc p) →
      (m.kernel.procs p).state ≠ .dead ∨ m.links.Alone (.waitQ p)) &&
    e.waitsFor.all fun pid => ∀ p, m.kernel.procTable pid = .proc p →
      Live m.kernel p ∧ (m.point p).call.isNone

theorem keepsQueues_of_keeps (h : m.keeps e = true) :
  m.KeepsQueues e
  := by
  unfold keeps at h
  rw [Bool.and_eq_true, Bool.and_eq_true, Option.all_eq_true, decide_eq_true_eq,
    Option.all_eq_true] at h
  obtain ⟨⟨hhandles, hscan⟩, hwait⟩ := h
  have hcalm := fun p hp => of_decide_eq_true (hhandles p (handles_eq hp))
  have hjoin : ∀ pid p, e = .waitpid pid → m.kernel.procTable pid = .proc p →
      Live m.kernel p ∧ (m.point p).call.isNone := by
    rintro pid p rfl
    exact of_decide_eq_true (hwait pid rfl) p
  constructor
  · constructor
    · exact fun pid p he hp => (hjoin pid p he hp).1
    · intro p hp hne
      exact ((hcalm p hp).resolve_left hne).2.1
    · intro p q hp hs _
      rcases hcalm p hp with hnone | ⟨hne, -⟩
      · exact absurd (hnone.symm.trans hs) (Option.some_ne_none _).symm
      · exact absurd hs hne
    · rintro p ⟨-, -, ⟨save, hsc⟩, hd⟩
      exact (hscan p (by rw [hsc]; rfl)).resolve_left fun hne => hne hd
  · intro pid p q a he hp hc
    obtain ⟨-, save, hpoint⟩ := calls_eq_some.mp hc
    have hnone := (hjoin pid p he hp).2
    rw [hpoint] at hnone
    cases hnone
  · intro p q a hp hs
    rcases hcalm p hp with hnone | ⟨hne, -⟩
    · exact absurd (hnone.symm.trans hs) (Option.some_ne_none _).symm
    · exact absurd hs hne
  · rintro p hp hs ⟨hc, -⟩
    rcases hcalm p hp with hnone | ⟨-, -, halarm | hne, -⟩
    · rw [hnone] at hs
      exact absurd hs (by decide)
    · rw [halarm] at hs
      exact absurd hs (by decide)
    · exact hne hc
  · intro r q hr
    constructor
    · intro hq
      rcases hcalm q hq with hnone | ⟨-, -, -, hne⟩
      · exact hnone
      · exact absurd hr.2 (hne r)
    · intro p hp hs
      rcases hcalm p hp with hnone | ⟨hne, -⟩
      · exact absurd (hnone.symm.trans hs) (Option.some_ne_none _).symm
      · exact absurd hs hne

/-- A process exits that another one waits for. It is interrupted between its two stores into the
queue and gets `SigAlarm`, and a third one runs. -/
def interruptedExit : List Event :=
  [.preempt, .leave, .dispatch, .dispatch, .exec true, .exec true, .waitpid 2, .preempt, .leave,
    .dispatch, .dispatch, .exit, .exit, .exit, .exit, .exit, .exit, .post 2 sigAlarm, .preempt,
    .leave, .dispatch, .dispatch]

/-- The process that runs is stopped, and the exit goes on. -/
def resumedExit : List Event :=
  [.post 3 sigStop, .preempt, .leave, .dispatch, .dispatch, .dispatch, .exit, .exit, .exit]

theorem queues_intact_exit :
  ∃ m m', Run.Reach Step KeepsQueues (start booted) m ∧
    (m.links.next (.waitQ 125) = .nextWaitQ 126 ∧ m.links.prev (.waitQ 125) = .waitQ 125) ∧
    (∃ V, Completed .nextWaitQ m.calls m.links V ∧
      ∃ l : List ProcId, V.Ring (.waitQ 125) (l.map .nextWaitQ)) ∧
    Run.Reach Step KeepsQueues m m' ∧ (m'.kernel.procs 124).state = .stopped ∧
      m'.Readies .exit 126 ∧ (m'.kernel.procs 126).state = .waiting
  := by
  obtain ⟨m, hm, hP⟩ := exists_after (m := start booted) (C := KeepsQueues) (g := keeps)
    (P := fun m => (m.links.next (.waitQ 125) = .nextWaitQ 126 ∧
        m.links.prev (.waitQ 125) = .waitQ 125 ∧ (m.kernel.procs 125).pid ≠ 0) ∧
      ((Run.after next keeps m resumedExit).any fun m' =>
        (m'.kernel.procs 124).state = .stopped ∧ m'.kernel.runner = some 125 ∧
          (m'.kernel.procs 125).ctl = .unlink ∧ (m'.point 125).held = some 126 ∧
            (m'.point 125).call.isNone) = true)
    (fun _ _ => keepsQueues_of_keeps) interruptedExit (by decide +kernel)
  obtain ⟨⟨hnext, hprev, hused⟩, hafter⟩ := of_decide_eq_true hP
  obtain ⟨m', hm', hP'⟩ := exists_after (C := KeepsQueues)
    (fun _ _ => keepsQueues_of_keeps) _ hafter
  obtain ⟨hstopped, hrunner, hctl, hheld, hcall⟩ := of_decide_eq_true hP'
  obtain ⟨⟨V, hV, -, -, hrings⟩, -⟩ := queues_intact start_booted hm
  obtain ⟨-, -, -, hready, -⟩ := queues_intact start_booted (hm.trans hm')
  have hreadies : m'.Readies .exit 126 := by
    cases hp : m'.point 125 with
    | ready q save =>
        rw [hp] at hheld
        cases hheld
        exact ⟨rfl, 125, save, ⟨runner_runs hrunner, hctl⟩, hp⟩
    | unlink q save a =>
        rw [hp] at hcall
        cases hcall
    | _ =>
        rw [hp] at hheld
        cases hheld
  exact ⟨m, m', hm, ⟨hnext, hprev⟩, ⟨V, hV, hrings 125 hused⟩, hm', hstopped, hreadies,
    hready 126 hreadies⟩

/-- The steps are those of processes that are started, wait for others in the table, and exit, of
signals posted to processes in the table, and of the scheduler. -/
def queueSteps (m : Exits) : Event → Bool
  | .exec _ => true
  | .waitpid pid => ∃ p, m.kernel.procTable pid = .proc p ∧ Live m.kernel p
  | .exit => true
  | .post pid signal => signal ∈ [sigAbort, sigStop, sigContinue, sigAlarm] ∧
      ∃ p, m.kernel.procTable pid = .proc p ∧ Live m.kernel p
  | .preempt => true
  | .leave => true
  | .dispatch => true
  | _ => false

/-- A process that waits for another one is aborted and recycled: `wakeWaiting` of the other one
does not end. -/
theorem queues_broken :
  ¬ ∀ (m₀ m : Exits) (p : ProcId), m₀.Booted →
    Run.Reach Step (fun t e => t.queueSteps e = true) m₀ m → m.kernel.Used p → ¬ m.Reads p →
      ∃ k', wakeWaiting p m.kernel = .done () k'
  := by
  intro hclaim
  obtain ⟨m, hm, hP⟩ := exists_after (m := start booted)
    (C := fun t e => t.queueSteps e = true) (g := queueSteps)
    (P := fun m => (m.kernel.procs 125).pid ≠ 0 ∧ (m.kernel.procs 125).ctl ≠ .unlink ∧
      completed (wakeWaiting 125 m.kernel) = none)
    (fun _ _ h => h)
    [.preempt, .leave, .dispatch, .dispatch, .exec true, .waitpid 2, .post 1 sigAbort, .preempt,
      .leave, .dispatch, .dispatch, .preempt, .leave, .dispatch, .dispatch] (by decide +kernel)
  obtain ⟨hused, hctl, hstop⟩ := of_decide_eq_true hP
  obtain ⟨k', hdone⟩ := hclaim _ m 125 start_booted hm hused fun hr => hctl hr.1
  rw [hdone] at hstop
  cases hstop

end Exits

end Process
