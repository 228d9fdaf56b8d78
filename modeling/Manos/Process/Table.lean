import Mathlib.Data.Fintype.Card
import Manos.Process.Places

/-!
# The process table

Processes keep their pids: a structure gets a pid when it is first made a process, and has
it from then on.  The table has at the pid of a structure the structure itself, and `NULL`
while it is on the free list.
-/

namespace Process

open Exec

variable {k k' k₁ : Kernel} {p q : ProcId} {e : Event} {r r' f f' : List ProcId} {n : Nat}

/-! ### The invariant -/

/-- The pids and the process table, when the processes `f` are free. -/
structure Table (k : Kernel) (f : List ProcId) : Prop where
  nextPid : 0 ≤ k.nextPid
  pid : ∀ p, 0 ≤ (k.procs p).pid ∧ (k.procs p).pid ≤ k.nextPid
  inj : ∀ p q, (k.procs p).pid = (k.procs q).pid → (k.procs p).pid ≠ 0 → p = q
  onto : ∀ i : Int, 0 < i → i ≤ k.nextPid → ∃ p, (k.procs p).pid = i
  used : ∀ p, p ∉ f → (k.procs p).pid ≠ 0
  live : ∀ p, p ∉ f → k.procTable (k.procs p).pid = .proc p
  free : ∀ p, p ∈ f → (k.procs p).pid ≠ 0 → k.procTable (k.procs p).pid = .null
  unused : ∀ i : Int, 0 ≤ i → i < maxProc → (∀ p, (k.procs p).pid ≠ 0 → (k.procs p).pid ≠ i) →
    k.procTable i = .null
  parent : ∀ p, (k.procs p).ppid = 0 ∨
    ∃ q, (k.procs q).pid ≠ 0 ∧ (k.procs p).ppid = (k.procs q).pid

/-- The pids, the table and the counter are the same. -/
structure SameIds (k k' : Kernel) : Prop where
  procTable : k'.procTable = k.procTable
  nextPid : k'.nextPid = k.nextPid
  pid : ∀ p, (k'.procs p).pid = (k.procs p).pid
  ppid : ∀ p, (k'.procs p).ppid = (k.procs p).ppid

theorem Table.congr (h : Table k f) (hs : SameIds k k') :
  Table k' f
  := by
  obtain ⟨ht, hn, hp, hpp⟩ := hs
  constructor
  · rw [hn]
    exact h.nextPid
  · intro p
    rw [hn, hp]
    exact h.pid p
  · intro p q
    rw [hp, hp]
    exact h.inj p q
  · intro i
    rw [hn]
    simp only [hp]
    exact h.onto i
  · intro p
    rw [hp]
    exact h.used p
  · intro p
    rw [ht, hp]
    exact h.live p
  · intro p
    rw [ht, hp]
    exact h.free p
  · intro i
    rw [ht]
    simp only [hp]
    exact h.unused i
  · intro p
    rw [hpp]
    simp only [hp]
    exact h.parent p

theorem Still.sameIds (h : Still k k') :
  SameIds k k'
  := by
  refine ⟨h.procTable, h.nextPid, ?_, ?_⟩
  · intro p
    obtain ⟨s, c, hp⟩ := h.procs p
    rw [hp]
  · intro p
    obtain ⟨s, c, hp⟩ := h.procs p
    rw [hp]

/-- A change of a process that keeps its pids. -/
theorem sameIds_update {x : Proc} (ht : k'.procTable = k.procTable) (hn : k'.nextPid = k.nextPid)
    (hp : k'.procs = Function.update k.procs p x)
    (hx : x.pid = (k.procs p).pid ∧ x.ppid = (k.procs p).ppid) :
  SameIds k k'
  := by
  refine ⟨ht, hn, ?_, ?_⟩
  · intro q
    rw [hp]
    by_cases hq : q = p
    · rw [hq, Function.update_self, hx.1]
    · rw [Function.update_of_ne hq]
  · intro q
    rw [hp]
    by_cases hq : q = p
    · rw [hq, Function.update_self, hx.2]
    · rw [Function.update_of_ne hq]

theorem SameIds.trans {k₂ : Kernel} (h : SameIds k k₁) (h' : SameIds k₁ k₂) :
  SameIds k k₂
  := by
  refine ⟨h'.procTable.trans h.procTable, h'.nextPid.trans h.nextPid, ?_, ?_⟩
  · intro p
    rw [h'.pid, h.pid]
  · intro p
    rw [h'.ppid, h.ppid]

/-- `schedProc` gives the process its pids when it takes it off the free list. -/
theorem schedProc_sameIds {tty : Bool} (h : schedProc tty k = .done p k') :
  SameIds (k.taken p) k'
  := by
  rcases (schedProc_taken h).2 with rfl | ⟨fd, -, rfl⟩
  · exact sameIds_update rfl rfl rfl ⟨rfl, rfl⟩
  · have hopen : SameIds (k.taken p) ((k.taken p).opened p fd) :=
      sameIds_update rfl rfl rfl ⟨rfl, rfl⟩
    exact hopen.trans (sameIds_update rfl rfl rfl ⟨rfl, rfl⟩)

/-- Only processes that are not free are in the table, at the pids that were given. -/
theorem Table.notMem (h : Table k f) (hq : (k.procs q).pid ≠ 0)
    (hs : k.procTable (k.procs q).pid = .proc p) :
  p = q ∧ p ∉ f
  := by
  by_cases hf : q ∈ f
  · rw [h.free q hf hq] at hs
    cases hs
  · rw [h.live q hf] at hs
    cases hs
    exact ⟨rfl, hf⟩

/-- The first slot is never used. -/
theorem Table.slot_zero (h : Table k f) :
  k.procTable 0 = .null
  := h.unused 0 (le_refl 0) (by decide) fun _ hp => hp

/-- No more pids are given than there are processes. -/
theorem Table.nextPid_le (h : Table k f) :
  k.nextPid ≤ maxProc
  := by
  by_contra hlt
  have hex : ∀ i : Fin (maxProc + 1), ∃ p, (k.procs p).pid = (i : Int) + 1 := by
    intro i
    apply h.onto
    · omega
    · omega
  choose g hg using hex
  have hinj : Function.Injective g := by
    intro i j hij
    have hi := hg i
    rw [hij, hg j] at hi
    omega
  have hcard := Fintype.card_le_of_injective g hinj
  simp only [Fintype.card_fin] at hcard
  omega

/-- The process is in the table under its pid. -/
def Live (k : Kernel) (p : ProcId) : Prop := k.procTable (k.procs p).pid = .proc p

instance (k : Kernel) (p : ProcId) : Decidable (Live k p) := inferInstanceAs (Decidable (_ = _))

/-- The processes that are not free are those in the table. -/
theorem Table.live_iff (h : Table k f) :
  Live k p ↔ p ∉ f
  := by
  constructor
  · intro hp hf
    by_cases h₀ : (k.procs p).pid = 0
    · rw [Live, h₀, h.slot_zero] at hp
      cases hp
    · rw [Live, h.free p hf h₀] at hp
      cases hp
  · exact h.live p

/-! ### Processes made and recycled -/

theorem Table.pidFor (h : Table k f) (p : ProcId) :
  0 < k.pidFor p ∧ ((k.procs p).pid = 0 → k.pidFor p = k.nextPid + 1) ∧
    ∀ q, q ≠ p → (k.procs q).pid ≠ k.pidFor p
  := by
  have hnext := h.nextPid
  have hpid := h.pid p
  rw [Kernel.pidFor]
  split
  · rename_i hp
    refine ⟨by omega, fun _ => rfl, ?_⟩
    intro q _
    have := h.pid q
    omega
  · rename_i hp
    refine ⟨by omega, fun h₀ => absurd h₀ hp, ?_⟩
    intro q hq heq
    exact hq (h.inj q p heq (by rwa [heq]))

theorem Kernel.taken_self (p : ProcId) (k : Kernel) :
  ((k.taken p).procs p).pid = k.pidFor p
  := by
  simp [Kernel.taken]

theorem Kernel.taken_of_ne (h : q ≠ p) (k : Kernel) :
  (k.taken p).procs q = k.procs q
  := Function.update_of_ne h _ _

/-- The pid of the parent of a new process. -/
theorem Kernel.taken_ppid (p : ProcId) (k : Kernel) :
  ((k.taken p).procs p).ppid = k.rp.pid fun q => (k.taken p).procs q
  := by
  cases hr : k.rp with
  | null => simp [Kernel.taken, hr, Rp.pid]
  | bad => simp [Kernel.taken, hr, Rp.pid]
  | proc r =>
      by_cases hrp : r = p
      · subst hrp
        simp [Kernel.taken, hr, Rp.pid]
      · simp [Kernel.taken, hr, Rp.pid, Function.update_of_ne hrp]

theorem Table.taken (h : Table k (p :: f)) (hp : p ∉ f) (hr : k.rp ≠ .bad)
    (hlive : ∀ r, k.rp = .proc r → r ∉ p :: f) :
  Table (k.taken p) f
  := by
  obtain ⟨hpos, hnew, hother⟩ := h.pidFor p
  have hnext : (k.taken p).nextPid = if (k.procs p).pid = 0 then k.nextPid + 1 else k.nextPid :=
    rfl
  have hpid : ∀ q, q ≠ p → ((k.taken p).procs q).pid = (k.procs q).pid := by
    intro q hq
    rw [Kernel.taken_of_ne hq]
  have hle : k.nextPid ≤ (k.taken p).nextPid := by
    rw [hnext]
    split
    · omega
    · omega
  have hself : k.pidFor p ≤ (k.taken p).nextPid := by
    by_cases h₀ : (k.procs p).pid = 0
    · rw [hnew h₀, hnext, if_pos h₀]
    · rw [Kernel.pidFor, if_neg h₀, hnext, if_neg h₀]
      exact (h.pid p).2
  have hslot : ∀ i, i ≠ k.pidFor p → (k.taken p).procTable i = k.procTable i := by
    intro i hi
    exact Function.update_of_ne hi _ _
  have hgiven : ∀ q, (k.procs q).pid ≠ 0 → ((k.taken p).procs q).pid = (k.procs q).pid := by
    intro q hq
    by_cases hqp : q = p
    · subst hqp
      rw [Kernel.taken_self, Kernel.pidFor, if_neg hq]
    · exact hpid q hqp
  constructor
  · have := h.nextPid
    omega
  · intro q
    by_cases hq : q = p
    · rw [hq, Kernel.taken_self]
      exact ⟨by omega, hself⟩
    · rw [hpid q hq]
      have := h.pid q
      omega
  · intro q q' heq hne
    by_cases hq : q = p
    · by_cases hq' : q' = p
      · rw [hq, hq']
      · rw [hq, Kernel.taken_self, hpid q' hq'] at heq
        exact absurd heq.symm (hother q' hq')
    · by_cases hq' : q' = p
      · rw [hq', Kernel.taken_self, hpid q hq] at heq
        exact absurd heq (hother q hq)
      · rw [hpid q hq] at hne
        rw [hpid q hq, hpid q' hq'] at heq
        exact h.inj q q' heq hne
  · intro i h₀ hi
    by_cases hip : i = k.pidFor p
    · use p
      rw [hip, Kernel.taken_self]
    · have hi' : i ≤ k.nextPid := by
        rw [hnext] at hi
        split at hi
        · rename_i hz
          have := hnew hz
          omega
        · exact hi
      obtain ⟨q, rfl⟩ := h.onto i h₀ hi'
      use q
      apply hgiven
      omega
  · intro q hq
    by_cases hqp : q = p
    · rw [hqp, Kernel.taken_self]
      omega
    · rw [hpid q hqp]
      apply h.used
      simp only [List.mem_cons, not_or]
      exact ⟨hqp, hq⟩
  · intro q hq
    by_cases hqp : q = p
    · rw [hqp, Kernel.taken_self]
      exact Function.update_self _ _ _
    · rw [hpid q hqp, hslot _ (hother q hqp)]
      apply h.live
      simp only [List.mem_cons, not_or]
      exact ⟨hqp, hq⟩
  · intro q hq hne
    have hqp : q ≠ p := by
      rintro rfl
      exact hp hq
    rw [hpid q hqp] at hne ⊢
    rw [hslot _ (hother q hqp)]
    exact h.free q (List.mem_cons_of_mem _ hq) hne
  · intro i h₀ h₁ hi
    have hip : i ≠ k.pidFor p := by
      have := hi p
      rw [Kernel.taken_self] at this
      exact (this (by omega)).symm
    rw [hslot i hip]
    apply h.unused i h₀ h₁
    intro q hq
    have := hi q
    rw [hgiven q hq] at this
    exact this hq
  · intro q
    by_cases hqp : q = p
    · rw [hqp, Kernel.taken_ppid]
      cases hrp : k.rp with
      | null =>
          left
          rfl
      | bad => exact absurd hrp hr
      | proc r =>
          right
          refine ⟨r, ?_, rfl⟩
          have hrf := hlive r hrp
          have hused := h.used r hrf
          rw [hgiven r hused]
          exact hused
    · rw [Kernel.taken_of_ne hqp]
      rcases h.parent q with hpar | ⟨s, hs, hpar⟩
      · left
        exact hpar
      · right
        refine ⟨s, ?_, ?_⟩
        · rw [hgiven s hs]
          exact hs
        · rw [hgiven s hs]
          exact hpar

theorem Kernel.recycled_pid (p q : ProcId) (groups : Nat → Option ProcGroup) (k : Kernel) :
  ((k.recycled p groups).procs q).pid = (k.procs q).pid
  := by
  by_cases hq : q = p
  · rw [hq]
    simp [Kernel.recycled]
  · exact congrArg Proc.pid (Function.update_of_ne hq _ _)

theorem Table.recycled (groups : Nat → Option ProcGroup) (h : Table k f) (hp : p ∉ f) :
  Table (k.recycled p groups) (f ++ [p])
  := by
  have hpid := fun q => Kernel.recycled_pid p q groups k
  have hslot : ∀ q, q ≠ p → (k.procs q).pid ≠ 0 →
      (k.recycled p groups).procTable (k.procs q).pid = k.procTable (k.procs q).pid := by
    intro q hq hne
    apply Function.update_of_ne
    intro heq
    exact hq (h.inj q p heq hne)
  constructor
  · exact h.nextPid
  · intro q
    rw [hpid]
    exact h.pid q
  · intro q q'
    rw [hpid, hpid]
    exact h.inj q q'
  · intro i h₀ hi
    simp only [hpid]
    exact h.onto i h₀ hi
  · intro q hq
    rw [List.mem_append, not_or] at hq
    rw [hpid]
    exact h.used q hq.1
  · intro q hq
    rw [List.mem_append, not_or, List.mem_singleton] at hq
    rw [hpid, hslot q hq.2 (h.used q hq.1)]
    exact h.live q hq.1
  · intro q hq hne
    rw [hpid] at hne ⊢
    by_cases hqp : q = p
    · rw [hqp]
      exact Function.update_self _ _ _
    · rw [hslot q hqp hne]
      apply h.free q _ hne
      rw [List.mem_append, List.mem_singleton] at hq
      exact hq.resolve_right hqp
  · intro i h₀ h₁ hi
    simp only [hpid] at hi
    by_cases hip : i = (k.procs p).pid
    · exact absurd hip.symm (hi p (h.used p hp))
    · exact (Function.update_of_ne hip _ _).trans (h.unused i h₀ h₁ hi)
  · intro q
    simp only [hpid]
    by_cases hqp : q = p
    · left
      rw [hqp]
      simp [Kernel.recycled]
    · have hq : (k.recycled p groups).procs q = k.procs q := Function.update_of_ne hqp _ _
      rw [hq]
      exact h.parent q

/-- When `main` has set up the lists, no process has a pid. -/
theorem table_listsSet (freelist : Links QNode) (memory : Int → Slot) :
  Table (listsSet freelist memory) (List.finRange maxProc).reverse
  := by
  have hmem : ∀ p, p ∈ (List.finRange maxProc).reverse := by
    intro p
    rw [List.mem_reverse]
    exact List.mem_finRange p
  constructor
  · exact le_refl 0
  · intro p
    exact ⟨le_refl 0, le_refl 0⟩
  · intro p q _ hne
    exact absurd rfl hne
  · intro i h₀ hi
    exact absurd hi (not_le.mpr h₀)
  · intro p hp
    exact absurd (hmem p) hp
  · intro p hp
    exact absurd (hmem p) hp
  · intro p _ hne
    exact absurd rfl hne
  · intro i h₀ h₁ _
    exact if_pos ⟨h₀, h₁⟩
  · intro p
    left
    rfl

/-! ### All steps -/

/-- Only to start and to recycle a process change the pids, the table or the free list. -/
theorem Effect.sameIds (h : Effect k e k') (hx : ∀ tty, e ≠ .exec tty)
    (hd : ∀ p save, e = .dispatch → k.scan = some (.proc p, save) → (k.procs p).state ≠ .dead) :
  k'.freelist = k.freelist ∧ SameIds k k'
  := by
  cases h with
  | exec => exact absurd rfl (hx _)
  | execOpen => exact absurd rfl (hx _)
  | recycle hr hs hdead => exact absurd hdead (hd _ _ rfl hs)
  | exitWake hr hc hw =>
      have hstill := (wakeWaiting_woken hw).still
      exact ⟨hstill.freelist, hstill.sameIds.trans (sameIds_update rfl rfl rfl ⟨rfl, rfl⟩)⟩
  | preempt hr hw hh =>
      have hstill := (paused_still _ k).trans (handleSignals_still hh)
      obtain ⟨ht, hn, hp, hpp⟩ := hstill.sameIds
      exact ⟨hstill.freelist, ht, hn, hp, hpp⟩
  | leave hr hw => exact ⟨rfl, sameIds_update rfl rfl rfl ⟨rfl, rfl⟩⟩
  | @skip p save k₁ hr hs hd hh hn =>
      have hstill := handleSignals_still hh
      have hreset : SameIds k₁ (k₁.reset p) := sameIds_update rfl rfl rfl ⟨rfl, rfl⟩
      obtain ⟨ht, hn, hp, hpp⟩ := hstill.sameIds.trans hreset
      exact ⟨hstill.freelist, ht, hn, hp, hpp⟩
  | @run p save k₁ hr hs hd hh hn =>
      have hstill := handleSignals_still hh
      have hreset : SameIds k₁ (k₁.reset p) := sameIds_update rfl rfl rfl ⟨rfl, rfl⟩
      have hstart : SameIds (k₁.reset p) ((k₁.reset p).started p) :=
        sameIds_update rfl rfl rfl ⟨rfl, rfl⟩
      exact ⟨hstill.freelist, (hstill.sameIds.trans hreset).trans hstart⟩
  | alarms hs =>
      refine ⟨rfl, rfl, rfl, ?_, ?_⟩
      · intro q
        change ((k.rung k.alarms).procs q).pid = _
        by_cases hq : k.Rings q k.alarms
        · rw [Kernel.rung_of_rings hq]
        · rw [Kernel.rung_of_not hq]
      · intro q
        change ((k.rung k.alarms).procs q).ppid = _
        by_cases hq : k.Rings q k.alarms
        · rw [Kernel.rung_of_rings hq]
        · rw [Kernel.rung_of_not hq]
  | @sleep r millis opens fd hr hd =>
      have hopen : SameIds k (k.opened r fd) := sameIds_update rfl rfl rfl ⟨rfl, rfl⟩
      exact ⟨rfl, hopen.trans (sameIds_update rfl rfl rfl ⟨rfl, rfl⟩)⟩
  | waitpid => exact ⟨rfl, sameIds_update rfl rfl rfl ⟨rfl, rfl⟩⟩
  | openFile => exact ⟨rfl, sameIds_update rfl rfl rfl ⟨rfl, rfl⟩⟩
  | asleep => exact ⟨rfl, sameIds_update rfl rfl rfl ⟨rfl, rfl⟩⟩
  | closing => exact ⟨rfl, sameIds_update rfl rfl rfl ⟨rfl, rfl⟩⟩
  | closeFile => exact ⟨rfl, sameIds_update rfl rfl rfl ⟨rfl, rfl⟩⟩
  | armed => exact ⟨rfl, sameIds_update rfl rfl rfl ⟨rfl, rfl⟩⟩
  | armedNone => exact ⟨rfl, sameIds_update rfl rfl rfl ⟨rfl, rfl⟩⟩
  | disarming => exact ⟨rfl, sameIds_update rfl rfl rfl ⟨rfl, rfl⟩⟩
  | mask => exact ⟨rfl, sameIds_update rfl rfl rfl ⟨rfl, rfl⟩⟩
  | block => exact ⟨rfl, sameIds_update rfl rfl rfl ⟨rfl, rfl⟩⟩
  | unblock => exact ⟨rfl, sameIds_update rfl rfl rfl ⟨rfl, rfl⟩⟩
  | exitUnlink => exact ⟨rfl, sameIds_update rfl rfl rfl ⟨rfl, rfl⟩⟩
  | exitFree => exact ⟨rfl, sameIds_update rfl rfl rfl ⟨rfl, rfl⟩⟩
  | exitDead => exact ⟨rfl, sameIds_update rfl rfl rfl ⟨rfl, rfl⟩⟩
  | post => exact ⟨rfl, sameIds_update rfl rfl rfl ⟨rfl, rfl⟩⟩
  | _ => exact ⟨rfl, rfl, rfl, fun _ => rfl, fun _ => rfl⟩

/-- A free list holds at most all processes. -/
theorem Places.length_free (h : Places k r f) :
  f.length ≤ maxProc
  := by
  have hlen := h.perm.length_eq
  rw [List.length_append, List.length_append, List.length_finRange] at hlen
  omega

/-- The processes of the free list are determined by its links. -/
theorem Places.free_eq (h : Places k r f) (h' : Places k' r' f')
    (heq : k'.freelist = k.freelist) :
  f' = f
  := by
  have hm := h.freelist.members (n := maxProc) (by rw [List.length_map]; exact h.length_free)
  have hm' := h'.freelist.members (n := maxProc) (by rw [List.length_map]; exact h'.length_free)
  rw [heq, hm] at hm'
  exact (List.map_injective_iff.mpr (fun _ _ h => QNode.proc.inj h) hm').symm

end Process
