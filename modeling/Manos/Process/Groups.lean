import Manos.Lib.References
import Manos.Process.Calls

/-!
# Process groups

The members of a process group are the processes that refer to it, and `memberCount` is their
number.  A process that joins a group leaves its own first, which frees the group if it has no
other member.
-/

namespace Process

open Exec

variable {k k' : Kernel} {p q : ProcId} {g : Nat} {grp : ProcGroup} {f : List ProcId}
  {memory : Int → Slot}

/-- `incRef(&pgrp->memberCount)` -/
def incMembers (g : Nat) : K Unit := do
  let k ← Exec.get
  match k.groups g with
  | none => Exec.fault (.wild "pgrp")
  | some grp =>
    Exec.modify fun k =>
      { k with
        groups := Function.update k.groups g
          (some { grp with memberCount := grp.memberCount + 1 }) }

/-- `joinProcGroup(pgrp, p)` -/
def joinProcGroup (g : Nat) (p : ProcId) : K Unit := do
  let k ← Exec.get
  leaveProcGroup (k.procs p).pgrp
  incMembers g
  update p fun q => { q with pgrp := some g }

/-! ### What is counted -/

/-- The groups of the processes -/
def Kernel.pgrp (k : Kernel) (p : ProcId) : Option Nat := (k.procs p).pgrp

/-- The counters of the groups that are not freed -/
def Kernel.memberCount (k : Kernel) (g : Nat) : Option Int :=
  (k.groups g).map ProcGroup.memberCount

/-- The number of processes whose `pgrp` points to the group -/
def Kernel.members (k : Kernel) (g : Nat) : Nat := References.count k.pgrp g

/-- Every group counts its members, it is freed exactly when it has none, and no process refers
to a freed group. -/
structure CountsMembers (k : Kernel) : Prop where
  count : ∀ g grp, k.groups g = some grp → grp.memberCount = k.members g
  freed : ∀ g, k.groups g = none ↔ k.members g = 0
  refers : ∀ p g, (k.procs p).pgrp = some g → k.groups g ≠ none

theorem memberCount_eq_none_iff :
  k.memberCount g = none ↔ k.groups g = none
  := Option.map_eq_none_iff

/-- The groups count their members if their counters do. -/
theorem CountsMembers.of_counted (h : References.Counted k.pgrp k.memberCount) :
  CountsMembers k
  := by
  have hfreed : ∀ g, k.groups g = none ↔ k.members g = 0 := by
    intro g
    rw [← memberCount_eq_none_iff, h.eq_none_iff, Kernel.members, References.count_eq_zero_iff]
  constructor
  case count =>
    intro g grp hg
    have hne : k.members g ≠ 0 := by
      rw [Ne, ← hfreed, hg]
      nofun
    have hcount : k.memberCount g = References.counter (k.members g) := h g
    rw [Kernel.memberCount, hg, Option.map_some,
      References.counter_of_ne (Int.natCast_ne_zero.mpr hne)] at hcount
    exact Option.some.inj hcount
  case freed => exact hfreed
  case refers =>
    intro p g hp
    rw [Ne, hfreed]
    exact References.count_ne_zero hp

/-! ### Leaving and joining -/

/-- The groups after a member has left `g`. -/
def Kernel.groupLeft (g : Nat) (k : Kernel) : Nat → Option ProcGroup :=
  Function.update k.groups g ((k.groups g).bind fun grp =>
    if grp.memberCount - 1 = 0 then none else some { grp with memberCount := grp.memberCount - 1 })

theorem leaveProcGroup_apply (h : k.groups g ≠ none) :
  leaveProcGroup (some g) k = .done () { k with groups := k.groupLeft g }
  := by
  obtain ⟨grp, hg⟩ := Option.ne_none_iff_exists'.mp h
  rw [leaveProcGroup, bind_done (get_apply k), Kernel.groupLeft, hg]
  rfl

/-- To leave a group is to give up a reference to it. -/
theorem memberCount_left (g : Nat) (k : Kernel) :
  Kernel.memberCount { k with groups := k.groupLeft g } = References.release k.memberCount g
  := by
  funext g'
  by_cases hg : g' = g
  · subst hg
    simp only [Kernel.memberCount, Kernel.groupLeft, References.release, Function.update_self]
    cases k.groups g' with
    | none => rfl
    | some grp =>
        simp only [Option.map_some, Option.bind_some, References.counter]
        split_ifs
        · rfl
        · rfl
  · simp only [Kernel.memberCount, Kernel.groupLeft, References.release, Function.update_of_ne hg]

theorem incMembers_apply (h : k.groups g = some grp) :
  incMembers g k = .done ()
    { k with
      groups := Function.update k.groups g
        (some { grp with memberCount := grp.memberCount + 1 }) }
  := by
  rw [incMembers, bind_done (get_apply k), h]
  rfl

/-- To join a group is to take a reference to it. -/
theorem memberCount_inc (h : k.groups g = some grp) :
  Kernel.memberCount { k with
      groups := Function.update k.groups g
        (some { grp with memberCount := grp.memberCount + 1 }) } =
    References.retain k.memberCount g
  := by
  funext g'
  by_cases hg : g' = g
  · subst hg
    simp only [Kernel.memberCount, References.retain, Function.update_self, h, Option.map_some]
  · simp only [Kernel.memberCount, References.retain, Function.update_of_ne hg]

/-! ### Runs -/

/-- A call that changes the members of groups. -/
inductive GroupCall where
  /-- `newProc()` -/
  | new
  /-- `joinProcGroup(pgrp, p)` -/
  | join (g : Nat) (p : ProcId)
  /-- `recycleProc(p)` -/
  | recycle (p : ProcId)

namespace GroupCall

/-- What a call does. -/
def run : GroupCall → K Unit
  | new => do
    let _ ← newProc
    pure ()
  | join g p => joinProcGroup g p
  | recycle p => recycleProc p

/-- A call is made for a process, and with a group that is not freed. -/
def Applies (k : Kernel) : GroupCall → Prop
  | new => True
  | join g p => k.groups g ≠ none ∧ ¬ k.Free p
  | recycle p => ¬ k.Free p

/-- A process joins its own group only if the group has another member. -/
def KeepsGroup (k : Kernel) : GroupCall → Prop
  | join g p => (k.procs p).pgrp = some g → ∃ q, q ≠ p ∧ (k.procs q).pgrp = some g
  | _ => True

end GroupCall

variable (memory) in
/-- The calls of a run from the end of `main`, the last one first, each with the kernel before it;
and the outcome of the last call.  No call is made after a fault. -/
inductive GroupCalls : List (Kernel × GroupCall) → Outcome Kernel Unit → Prop where
  | setup {k : Kernel} (h : setup (powerOn memory) = .done () k) : GroupCalls [] (.done () k)
  | call {l : List (Kernel × GroupCall)} {k : Kernel} {c : GroupCall}
      (h : GroupCalls l (.done () k)) (hc : c.Applies k) : GroupCalls ((k, c) :: l) (c.run k)

/-- The processes that are not on the free list `f` have groups, and the groups count them. -/
structure GroupsInv (k : Kernel) (f : List ProcId) : Prop where
  ring : k.freelist.Ring .head (f.map .proc)
  counted : References.Counted k.pgrp k.memberCount
  free : ∀ p, p ∈ f ↔ (k.procs p).pgrp = none
  fresh : ∀ g, k.allocated ≤ g → k.groups g = none
  nextPid : 0 ≤ k.nextPid

theorem groupsInv_setup (h : setup (powerOn memory) = .done () k) :
  GroupsInv k (List.finRange maxProc).reverse
  := by
  obtain ⟨freelist, hsetup, hring⟩ := setup_done memory
  rw [hsetup] at h
  cases h
  constructor
  case ring => exact hring
  case counted =>
    intro g
    have hzero : References.count (listsSet freelist memory).pgrp g = 0 :=
      References.count_eq_zero_iff.mpr nofun
    rw [hzero]
    rfl
  case free =>
    intro p
    exact iff_of_true (List.mem_reverse.mpr (List.mem_finRange p)) rfl
  case fresh =>
    intro g _
    rfl
  case nextPid => exact Int.le_refl 0

namespace GroupsInv

/-- A process has a group, which is not freed. -/
theorem group_of_not_free (h : GroupsInv k f) (hp : ¬ k.Free p) :
  ∃ g, (k.procs p).pgrp = some g ∧ k.groups g ≠ none
  := by
  rw [free_iff h.ring, h.free] at hp
  obtain ⟨g, hg⟩ := Option.ne_none_iff_exists'.mp hp
  exact ⟨g, hg, (CountsMembers.of_counted h.counted).refers p g hg⟩

/-! #### New processes -/

theorem pgrp_taken (p : ProcId) (k : Kernel) :
  (k.taken p).pgrp = Function.update k.pgrp p (some k.allocated)
  := by
  funext q
  by_cases hq : q = p
  · subst hq
    simp [Kernel.pgrp, Kernel.taken]
  · rw [Kernel.pgrp, Kernel.taken_of_ne hq, Function.update_of_ne hq]
    rfl

theorem memberCount_taken (p : ProcId) (k : Kernel) :
  (k.taken p).memberCount = Function.update k.memberCount k.allocated (some 1)
  := by
  funext g
  by_cases hg : g = k.allocated
  · subst hg
    simp [Kernel.memberCount, Kernel.taken]
  · simp [Kernel.memberCount, Kernel.taken, Function.update_of_ne hg]

/-- A new process is the only member of a new group. -/
theorem taken (h : GroupsInv k (p :: f)) :
  GroupsInv (k.taken p) f
  := by
  have hnone : k.pgrp p = none := (h.free p).mp List.mem_cons_self
  obtain ⟨hpf, hring⟩ := ring_tail h.ring
  constructor
  case ring => exact hring
  case counted =>
    rw [pgrp_taken, memberCount_taken]
    exact h.counted.create hnone (memberCount_eq_none_iff.mpr (h.fresh _ (Nat.le_refl _)))
  case free =>
    intro q
    have hq := congrFun (pgrp_taken p k) q
    by_cases hqp : q = p
    · subst hqp
      rw [Function.update_self] at hq
      refine iff_of_false hpf ?_
      intro hnone'
      rw [Kernel.pgrp, hnone'] at hq
      cases hq
    · rw [Kernel.taken_of_ne hqp, ← h.free, List.mem_cons, or_iff_right hqp]
  case fresh =>
    intro g hg
    have hlt : k.allocated + 1 ≤ g := hg
    have hne : g ≠ k.allocated := by omega
    have hold : (k.taken p).groups g = k.groups g := Function.update_of_ne hne _ _
    rw [hold]
    exact h.fresh g (by omega)
  case nextPid =>
    have hpos := h.nextPid
    simp only [Kernel.taken]
    split_ifs
    · omega
    · omega

/-- However `newProc` ends, the groups count their members. -/
theorem newProc (h : GroupsInv k f) :
  ∃ f', GroupsInv (GroupCall.run .new k).state f'
  := by
  cases f with
  | nil =>
      have hhead : k.freelist.next .head = .head := h.ring.neighbours_head.1
      have htake : takeFree k = .stop .endless k := by
        rw [takeFree, bind_done (get_apply k), hhead]
        rfl
      have hnew : Process.newProc k = .stop .endless k := bind_stop htake
      rw [GroupCall.run, bind_stop hnew]
      exact ⟨[], h⟩
  | cons p f =>
      have hhead : k.freelist.next .head = .proc p := h.ring.neighbours_head.1
      have hpid : k.pidFor p ≠ 0 := by
        have hpos := h.nextPid
        rw [Kernel.pidFor]
        split_ifs with hzero
        · omega
        · exact hzero
      have hnew := newProc_apply hhead hpid
      have htaken := h.taken
      by_cases hslot : k.procTable (k.pidFor p) = .null
      · rw [if_pos hslot] at hnew
        rw [GroupCall.run, bind_done hnew]
        exact ⟨f, htaken⟩
      · rw [if_neg hslot] at hnew
        rw [GroupCall.run, bind_stop hnew]
        exact ⟨f, htaken.ring, htaken.counted, htaken.free, htaken.fresh, htaken.nextPid⟩

/-! #### Processes that end -/

/-- `recycleProc` of a process takes it out of its group. -/
theorem recycleProc_apply (h : k.groups g ≠ none) (hp : (k.procs p).pgrp = some g) :
  recycleProc p k = .done () (k.recycled p (k.groupLeft g))
  := by
  obtain ⟨grp, hg⟩ := Option.ne_none_iff_exists'.mp h
  simp [recycleProc, initWaits, update, bind_apply, leaveProcGroup, hp, hg, Kernel.recycled,
    Kernel.groupLeft, Kernel.setProc, Kernel.setFreelist, Kernel.setWaits, Kernel.setRunQ,
    Kernel.setSlot]

theorem pgrp_recycled (p : ProcId) (groups : Nat → Option ProcGroup) (k : Kernel) :
  (k.recycled p groups).pgrp = Function.update k.pgrp p none
  := by
  funext q
  by_cases hq : q = p
  · subst hq
    simp [Kernel.pgrp, Kernel.recycled]
  · simp [Kernel.pgrp, Kernel.recycled, Function.update_of_ne hq]

theorem recycleProc (h : GroupsInv k f) (hp : ¬ k.Free p) :
  ∃ f', GroupsInv (GroupCall.run (.recycle p) k).state f'
  := by
  obtain ⟨g, hg, hlive⟩ := h.group_of_not_free hp
  rw [GroupCall.run, recycleProc_apply hlive hg]
  rw [free_iff h.ring] at hp
  refine ⟨f ++ [p], ?_⟩
  constructor
  case ring => exact ring_addBefore (ring_init h.ring hp) hp
  case counted =>
    have hcount := h.counted.release (i := p) (a := g) hg
    rw [← memberCount_left, ← pgrp_recycled p (k.groupLeft g) k] at hcount
    exact hcount
  case free =>
    intro q
    have hq : ((k.recycled p (k.groupLeft g)).procs q).pgrp = _ :=
      congrFun (pgrp_recycled p (k.groupLeft g) k) q
    rw [Outcome.state_done, hq, List.mem_append, List.mem_singleton]
    by_cases hqp : q = p
    · rw [hqp, Function.update_self]
      exact iff_of_true (.inr rfl) rfl
    · rw [Function.update_of_ne hqp, or_iff_left hqp]
      exact h.free q
  case fresh =>
    intro g' hg'
    have hne : g' ≠ g := by
      rintro rfl
      exact hlive (h.fresh g' hg')
    exact (Function.update_of_ne hne _ _).trans (h.fresh g' hg')
  case nextPid => exact h.nextPid

/-! #### Processes that join a group -/

theorem pgrp_setProc (p : ProcId) (g : Nat) (k : Kernel) :
  (k.setProc p fun q => { q with pgrp := some g }).pgrp = Function.update k.pgrp p (some g)
  := by
  funext q
  by_cases hq : q = p
  · subst hq
    simp [Kernel.pgrp, Kernel.setProc]
  · simp [Kernel.pgrp, Kernel.setProc, Function.update_of_ne hq]

/-- The kernel after the process `p` left the group `g'` for the group `g`. -/
theorem joinProcGroup_apply {g' : Nat} (hp : (k.procs p).pgrp = some g') (hg' : k.groups g' ≠ none)
    (hg : k.groupLeft g' g = some grp) :
  joinProcGroup g p k = .done ()
    (Kernel.setProc p (fun q => { q with pgrp := some g })
      { k with
        groups := Function.update (k.groupLeft g') g
          (some { grp with memberCount := grp.memberCount + 1 }) })
  := by
  have hinc := incMembers_apply (k := { k with groups := k.groupLeft g' }) hg
  rw [joinProcGroup, bind_done (get_apply k), hp, bind_done (leaveProcGroup_apply hg'),
    bind_done hinc]
  rfl

/-- A process that leaves its group as the last member to join it finds it freed. -/
theorem joinProcGroup_stop (hp : (k.procs p).pgrp = some g) (hlive : k.groups g ≠ none)
    (hg : k.groupLeft g g = none) :
  joinProcGroup g p k = .stop (.wild "pgrp") { k with groups := k.groupLeft g }
  := by
  have hinc : incMembers g { k with groups := k.groupLeft g } =
      .stop (.wild "pgrp") { k with groups := k.groupLeft g } := by
    rw [incMembers, bind_done (get_apply _)]
    dsimp only
    rw [hg]
    rfl
  rw [joinProcGroup, bind_done (get_apply k), hp, bind_done (leaveProcGroup_apply hlive),
    bind_stop hinc]

/-- The group that a process leaves is freed exactly if it has no other member. -/
theorem left_eq_none_iff (h : GroupsInv k f) (hp : (k.procs p).pgrp = some g) :
  k.groupLeft g g = none ↔ ∀ q, (k.procs q).pgrp = some g → q = p
  := by
  have hrelease := h.counted.release_eq_none_iff (i := p) hp
  rw [← memberCount_left] at hrelease
  exact memberCount_eq_none_iff.symm.trans hrelease

theorem joinProcGroup (h : GroupsInv k f) (hc : (GroupCall.join g p).Applies k)
    (hkeeps : (GroupCall.join g p).KeepsGroup k) :
  ∃ f', GroupsInv (GroupCall.run (.join g p) k).state f'
  := by
  obtain ⟨hlive, hp⟩ := hc
  obtain ⟨g', hg', hlive'⟩ := h.group_of_not_free hp
  have hleft : k.groupLeft g' g ≠ none := by
    by_cases hgg : g = g'
    · subst hgg
      rw [Ne, h.left_eq_none_iff hg']
      intro honly
      obtain ⟨q, hqp, hq⟩ := hkeeps hg'
      exact hqp (honly q hq)
    · rw [Kernel.groupLeft, Function.update_of_ne hgg]
      exact hlive
  obtain ⟨grp, hgrp⟩ := Option.ne_none_iff_exists'.mp hleft
  rw [GroupCall.run, joinProcGroup_apply hg' hlive' hgrp]
  refine ⟨f, ?_⟩
  have hjoined := pgrp_setProc p g { k with
    groups := Function.update (k.groupLeft g') g
      (some { grp with memberCount := grp.memberCount + 1 }) }
  constructor
  case ring => exact h.ring
  case counted =>
    have hcount := (h.counted.release (i := p) hg').retain (a := g) (Function.update_self _ _ _)
    rw [← memberCount_left] at hcount
    have hretain := hcount (by rw [Ne, memberCount_eq_none_iff]; exact hleft)
    rw [← memberCount_inc hgrp, Function.update_idem] at hretain
    rw [Outcome.state_done, hjoined]
    exact hretain
  case free =>
    intro q
    have hq := congrFun hjoined q
    by_cases hqp : q = p
    · subst hqp
      rw [Function.update_self] at hq
      refine iff_of_false ?_ ?_
      · rwa [free_iff h.ring] at hp
      · intro hnone
        rw [Kernel.pgrp, Outcome.state_done] at *
        rw [hnone] at hq
        cases hq
    · rw [Function.update_of_ne hqp] at hq
      exact (h.free q).trans (Eq.congr_left hq.symm)
  case fresh =>
    intro a ha
    have hfresh := h.fresh a ha
    have hne : a ≠ g := by
      rintro rfl
      exact hlive hfresh
    have hne' : a ≠ g' := by
      rintro rfl
      exact hlive' hfresh
    exact (Function.update_of_ne hne _ _).trans ((Function.update_of_ne hne' _ _).trans hfresh)
  case nextPid => exact h.nextPid

/-- However a call that keeps the groups ends, the groups count their members. -/
theorem run (h : GroupsInv k f) {c : GroupCall} (hc : c.Applies k) (hkeeps : c.KeepsGroup k) :
  ∃ f', GroupsInv (c.run k).state f'
  := by
  cases c with
  | new => exact h.newProc
  | join g p => exact h.joinProcGroup hc hkeeps
  | recycle p => exact h.recycleProc hc

/-- After another call a process refers to a freed group. -/
theorem uncounted (h : GroupsInv k f) {c : GroupCall} (hc : c.Applies k)
    (hkeeps : ¬ c.KeepsGroup k) :
  ¬ CountsMembers (c.run k).state
  := by
  cases c with
  | new => exact absurd trivial hkeeps
  | recycle p => exact absurd trivial hkeeps
  | join g p =>
      rw [GroupCall.KeepsGroup] at hkeeps
      push Not at hkeeps
      obtain ⟨hp, honly⟩ := hkeeps
      have hnone : k.groupLeft g g = none := by
        rw [h.left_eq_none_iff hp]
        intro q hq
        by_contra hqp
        exact honly q hqp hq
      rw [GroupCall.run, joinProcGroup_stop hp hc.1 hnone]
      intro hcounts
      exact hcounts.refers p g hp hnone

end GroupsInv

/-- In a run whose calls all keep the groups, they count their members after every call. -/
theorem GroupCalls.inv {l : List (Kernel × GroupCall)} {o : Outcome Kernel Unit}
    (h : GroupCalls memory l o) (hl : ∀ x ∈ l, x.2.KeepsGroup x.1) :
  (∀ x ∈ l, CountsMembers x.1) ∧ ∃ f, GroupsInv o.state f
  := by
  induction h with
  | setup h => exact ⟨List.forall_mem_nil _, _, groupsInv_setup h⟩
  | call h hc ih =>
      rw [List.forall_mem_cons] at hl ⊢
      obtain ⟨hbefore, f, hinv⟩ := ih hl.2
      exact ⟨⟨.of_counted hinv.counted, hbefore⟩, hinv.run hc hl.1⟩

/--
In every state of a run the groups count their members and are freed with the last of them,
exactly if no process joins its own group when it is the only member.
-/
theorem countsMembers_iff {l : List (Kernel × GroupCall)} {o : Outcome Kernel Unit}
    (h : GroupCalls memory l o) :
  ((∀ x ∈ l, CountsMembers x.1) ∧ CountsMembers o.state) ↔ ∀ x ∈ l, x.2.KeepsGroup x.1
  := by
  constructor
  · intro hcounts
    induction h with
    | setup h => exact List.forall_mem_nil _
    | @call l k c h hc ih =>
        obtain ⟨hbefore, hlast⟩ := hcounts
        rw [List.forall_mem_cons] at hbefore ⊢
        have hkeeps := ih ⟨hbefore.2, hbefore.1⟩
        refine ⟨?_, hkeeps⟩
        by_contra hne
        obtain ⟨f, hinv⟩ := (h.inv hkeeps).2
        exact hinv.uncounted hc hne hlast
  · intro hkeeps
    obtain ⟨hbefore, f, hinv⟩ := h.inv hkeeps
    exact ⟨hbefore, .of_counted hinv.counted⟩

/-- The first process that is made has the group `0` for itself. -/
theorem groupCalls_new (memory : Int → Slot) :
  ∃ k k₀ p, GroupCalls memory [(k₀, .new)] (.done () k) ∧ (k.procs p).pgrp = some 0 ∧
    (GroupCall.join 0 p).Applies k ∧ ∀ q, q ≠ p → (k.procs q).pgrp ≠ some 0
  := by
  obtain ⟨freelist, hsetup, hring⟩ := setup_done memory
  have hinv := groupsInv_setup hsetup
  obtain ⟨p, f, hf⟩ := List.exists_cons_of_ne_nil
    (List.ne_nil_of_mem (List.mem_reverse.mpr (List.mem_finRange (0 : ProcId))))
  rw [hf] at hinv
  have htaken := hinv.taken
  have hpid : (listsSet freelist memory).pidFor p = 1 := rfl
  have hnew : newProc (listsSet freelist memory) = .done p ((listsSet freelist memory).taken p) :=
    newProc_apply hinv.ring.neighbours_head.1 (by rw [hpid]; decide)
  have hcalls := GroupCalls.call (c := .new) (.setup hsetup) trivial
  rw [GroupCall.run, bind_done hnew] at hcalls
  have hpgrp := GroupsInv.pgrp_taken p (listsSet freelist memory)
  have hself : (((listsSet freelist memory).taken p).procs p).pgrp = some 0 :=
    (congrFun hpgrp p).trans (Function.update_self _ _ _)
  refine ⟨_, _, p, hcalls, hself, ⟨nofun, ?_⟩, ?_⟩
  · rw [free_iff htaken.ring, htaken.free, hself]
    nofun
  · intro q hq
    have hother : (((listsSet freelist memory).taken p).procs q).pgrp = none :=
      (congrFun hpgrp q).trans (Function.update_of_ne hq _ _)
    rw [hother]
    nofun

instance (k : Kernel) (p : ProcId) : Decidable (k.Free p) :=
  inferInstanceAs (Decidable (_ ∈ _))

instance (k : Kernel) : (c : GroupCall) → Decidable (c.Applies k)
  | .new => inferInstanceAs (Decidable True)
  | .join _ _ => inferInstanceAs (Decidable (_ ∧ _))
  | .recycle _ => inferInstanceAs (Decidable (¬ _))

instance (k : Kernel) : (c : GroupCall) → Decidable (c.KeepsGroup k)
  | .new => inferInstanceAs (Decidable True)
  | .join g p => inferInstanceAs (Decidable ((k.procs p).pgrp = some g →
      ∃ q, q ≠ p ∧ (k.procs q).pgrp = some g))
  | .recycle _ => inferInstanceAs (Decidable True)

/-- The kernel before each of the calls, the last one first, and after them, if all of them
apply, keep the groups and return. -/
def Kernel.groupCalls (k : Kernel) : List GroupCall → Option (List (Kernel × GroupCall) × Kernel)
  | [] => some ([], k)
  | c :: cs => (k.groupCalls cs).bind fun x =>
    if c.Applies x.2 ∧ c.KeepsGroup x.2 then
      (completed (c.run x.2)).map fun k' => ((x.2, c) :: x.1, k')
    else none

/-- What is computed is a run. -/
theorem groupCalls_run {k₀ : Kernel} {cs : List GroupCall} {l : List (Kernel × GroupCall)}
    (h₀ : setup (powerOn memory) = .done () k₀) (h : k₀.groupCalls cs = some (l, k)) :
  GroupCalls memory l (.done () k) ∧ l.map Prod.snd = cs ∧ ∀ x ∈ l, x.2.KeepsGroup x.1
  := by
  induction cs generalizing l k with
  | nil =>
      cases h
      exact ⟨.setup h₀, rfl, List.forall_mem_nil _⟩
  | cons c cs ih =>
      obtain ⟨⟨l', k'⟩, hbefore, h⟩ := Option.bind_eq_some_iff.mp h
      dsimp only at h
      split_ifs at h with happlies
      obtain ⟨k'', hdone, h⟩ := Option.map_eq_some_iff.mp h
      cases h
      obtain ⟨_, hrun⟩ := completed_eq_some hdone
      obtain ⟨hcalls, hmap, hkeeps⟩ := ih hbefore
      refine ⟨?_, congrArg _ hmap, List.forall_mem_cons.mpr ⟨happlies.2, hkeeps⟩⟩
      rw [← hrun]
      exact .call hcalls happlies.1

/-- Two processes are made, the second one joins the group of the first, the first one is recycled,
and a third process is made. -/
theorem countsMembers_iff_join :
  ∃ (l : List (Kernel × GroupCall)) (k : Kernel), GroupCalls (fun _ => .null) l (.done () k) ∧
    l.map Prod.snd = [.new, .recycle 126, .join 0 125, .new, .new] ∧
      (k.groups 0).map ProcGroup.memberCount = some 1 ∧ (∀ x ∈ l, CountsMembers x.1) ∧
        CountsMembers k
  := by
  have hcomputed : ((completed (setup (powerOn fun _ => .null))).bind fun k₀ => k₀.groupCalls
      [.new, .recycle 126, .join 0 125, .new, .new]).any (fun x =>
        (x.2.groups 0).map ProcGroup.memberCount = some 1) = true := by
    decide +kernel
  obtain ⟨⟨l, k⟩, hcalls, hcount⟩ := (Option.any_eq_true _ _).mp hcomputed
  obtain ⟨k₀, hsetup, hcalls⟩ := Option.bind_eq_some_iff.mp hcalls
  obtain ⟨_, hsetup⟩ := completed_eq_some hsetup
  obtain ⟨hrun, hmap, hkeeps⟩ := groupCalls_run hsetup hcalls
  exact ⟨l, k, hrun, hmap, of_decide_eq_true hcount, (countsMembers_iff hrun).mpr hkeeps⟩

/-- A process joins the group that it is the only member of. -/
theorem not_countsMembers :
  ¬ ∀ (memory : Int → Slot) (l : List (Kernel × GroupCall)) (o : Outcome Kernel Unit),
    GroupCalls memory l o → (∀ x ∈ l, CountsMembers x.1) ∧ CountsMembers o.state
  := by
  intro hclaim
  obtain ⟨k, k₀, p, h, hp, hc, honly⟩ := groupCalls_new fun _ => .null
  obtain ⟨f, hinv⟩ := (h.inv (List.forall_mem_singleton.mpr trivial)).2
  refine hinv.uncounted hc ?_ (hclaim _ _ _ (.call h hc)).2
  intro hkeeps
  obtain ⟨q, hqp, hq⟩ := hkeeps hp
  exact honly q hqp hq

end Process
