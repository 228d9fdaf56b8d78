import Manos.Dev.Calls

/-!
# The life of a process

A process is made by `schedProc`, makes system calls on its files, ends by an exit or by `SigAbort`,
and is put back on the free list by `recycleProc`.  At any time other processes may use the heap and
the devices; they do not free the blocks of the process.
-/

namespace Dev

open Exec

/-! ### Processes -/

/-- `ProcGroup` -/
structure ProcGroup where
  /-- its block -/
  addr : ℕ
  memberCount : ℕ

/-- `Proc`, with the heap and the devices -/
structure Proc where
  files : Files
  tty : ℤ
  /-- the block of the stack -/
  stack : Option ℕ
  pgrp : Option ProcGroup

/-- A program on the files of the process. -/
def onFiles {α : Type} (x : Exec Files α) : Exec Proc α :=
  onPart Proc.files (fun s p => { p with files := s }) x

/-- `syskmalloc0`, whose memory is used at once -/
def mustAlloc (what : String) : Exec Proc ℕ := do
  match ← onFiles (onHeap syskmalloc) with
  | none => fault (.null what)
  | some a => return a

/-- `newProcGroup` -/
def newProcGroup : Exec Proc Unit := do
  let a ← mustAlloc "pgrp"
  modify fun p => { p with pgrp := some ⟨a, 1⟩ }

/-- The part of `newProc` that gives the process a stack. -/
def newStack : Exec Proc Unit := do
  let p ← get
  match p.stack with
  | some _ => pure ()
  | none =>
      let a ← mustAlloc "stack"
      modify fun p => { p with stack := some a }

/-- `newProc`, which has taken the process off the free list -/
def newProc : Exec Proc Unit := do
  newStack
  newProcGroup

/-- `CAP_READWRITE` -/
def capReadWrite : ℕ := 2

/-- The path of the console. -/
def ttyPath : Platform → Name
  | .k70cw => text "/dev/uart/k70Uart"
  | .nice => text "/dev/uart/stdio"

/-- The part of `schedProc` that gives the process its portals. -/
def openPortals (pf : Platform) : Exec Files ℤ := do
  let slash ← onHeap (Device.root.attach pf [])
  modify fun s => { s with slash := slash }
  let dot ← onHeap (Device.root.attach pf [])
  modify fun s => { s with dot := dot }
  sysopen pf (ttyPath pf) capReadWrite

/-- `schedProc` -/
def schedProc (pf : Platform) : Exec Proc Unit := do
  newProc
  let tty ← onFiles (openPortals pf)
  modify fun p => { p with tty := tty }

/-- The loops that free the portals of descriptors; freeing a null pointer does nothing. -/
def freeLoop : List ℕ → Exec Files Unit
  | [] => pure ()
  | fd :: fds => do
      let s ← get
      match s.table fd with
      | none => pure ()
      | some (a, _) => onHeap (syskfree a)
      freeLoop fds

/-- `abortProc` -/
def abortProc : Exec Proc Unit := onFiles (freeLoop (List.range maxFd))

/-- What `processSignals` does with the files of a process for `SigAbort`. -/
def processAbort : Exec Proc Unit := onFiles (freeLoop (List.range maxFd))

/-- `leaveProcGroup` -/
def leaveProcGroup : Exec Proc Unit := do
  let p ← get
  match p.pgrp with
  | none => fault (.null "pgrp")
  | some g =>
      modify fun p => { p with pgrp := some { g with memberCount := g.memberCount - 1 } }
      when (g.memberCount - 1 = 0) (onFiles (onHeap (syskfree g.addr)))

/-- `recycleProc` -/
def recycleProc : Exec Proc Unit := do
  onFiles (modify fun s => { s with table := fun _ => none })
  leaveProcGroup
  modify fun p => { p with pgrp := none }

/-! ### Lives -/

/-- What other processes may do to the heap, when they do not free the blocks of `own`. -/
structure Heap.Others (own : Set ℕ) (H H' : Heap) : Prop where
  grants : H'.grants = H.grants
  next : H.next ≤ H'.next
  own : ∀ a ∈ own, a ∈ H'.live ↔ a ∈ H.live
  /-- a block that was freed is not allocated again: the next one has another number -/
  old : ∀ a < H.next, a ∈ H'.live → a ∈ H.live

/-- Where a process is in its life. -/
inductive Phase where
  | running
  | dead
  | recycled

/--
The lives of a process that is `p₀` on the free list, with the blocks that its calls left allocated
when they returned.
-/
inductive Life (pf : Platform) (p₀ : Proc) : Phase → Proc → Set ℕ → Prop where
  | sched {p} (hrun : schedProc pf p₀ = .done () p) :
      Life pf p₀ .running p (newBlocks p₀.files p.files)
  | call {p own s r} (c : Call) (hlife : Life pf p₀ .running p own)
      (hrun : c.run pf p.files = .done r s) :
      Life pf p₀ .running { p with files := s } (own ∪ newBlocks p.files s)
  | others {phase p own} (H : Heap) (m : Machine) (hlife : Life pf p₀ phase p own)
      (hothers : p.files.heap.Others own H) :
      Life pf p₀ phase { p with files := { p.files with heap := H, machine := m } } own
  | exit {p p' own} (hlife : Life pf p₀ .running p own) (hrun : abortProc p = .done () p') :
      Life pf p₀ .dead p' own
  | sigAbort {p p' own} (hlife : Life pf p₀ .running p own)
      (hrun : processAbort p = .done () p') :
      Life pf p₀ .dead p' own
  | recycle {p p' own} (hlife : Life pf p₀ .dead p own) (hrun : recycleProc p = .done () p') :
      Life pf p₀ .recycled p' own

/-- A process on the free list: no file is open, and its stack is allocated if it has one. -/
structure Proc.OnFreelist (p : Proc) : Prop where
  table : p.files.table = fun _ => none
  stack : ∀ a, p.stack = some a → a ∈ p.files.heap.live

variable {pf : Platform} {p p' p₀ : Proc} {own : Set ℕ}

/-! ### Creation -/

/-- An attach function that returns gives a portal in a new block. -/
theorem attach_cases {H H' : Heap} {x : ℕ × Portal}
    (hrun : Device.root.attach pf [] H = .done x H') :
  x.1 = H.next ∧ At x.2 (rootNode pf) ∧ H'.live = H.next :: H.live
  := by
  cases hH : H.grants H.next with
  | false =>
      rw [attach_of_refused pf .root [] hH] at hrun
      cases hrun
  | true =>
      obtain ⟨q, hdone, hq⟩ := attach_of_granted pf .root [] hH
      rw [hdone] at hrun
      cases hrun
      exact ⟨rfl, hq, rfl⟩

theorem onFiles_done {α : Type} {x : Exec Files α} {r : α} {s : Files}
    (h : x p.files = .done r s) :
  onFiles x p = .done r { p with files := s }
  := by
  rw [onFiles, onPart, h]

theorem onFiles_cases {α : Type} {x : Exec Files α} {r : α} (hrun : onFiles x p = .done r p') :
  ∃ s, x p.files = .done r s ∧ p' = { p with files := s }
  := by
  rw [onFiles, onPart] at hrun
  cases h : x p.files with
  | done r' s =>
      rw [h] at hrun
      cases hrun
      exact ⟨s, rfl, rfl⟩
  | stop f s =>
      rw [h] at hrun
      cases hrun

theorem mustAlloc_cases {what : String} {a : ℕ} (hrun : mustAlloc what p = .done a p') :
  a ∉ p.files.heap.live ∧ ∃ H, H.live = a :: p.files.heap.live ∧
    p' = { p with files := { p.files with heap := H } }
  := by
  rw [mustAlloc] at hrun
  cases hH : p.files.heap.grants p.files.heap.next with
  | false =>
      rw [bind_done (onFiles_done (onHeap_done (syskmalloc_refused hH)))] at hrun
      cases hrun
  | true =>
      rw [bind_done (onFiles_done (onHeap_done (syskmalloc_granted hH)))] at hrun
      cases hrun
      exact ⟨p.files.heap.next_notMem, _, rfl, rfl⟩

/-- After `newProc` the process has a stack and a group, in blocks that are allocated. -/
theorem newProc_cases (h₀ : p.OnFreelist) {u : Unit} (hrun : newProc p = .done u p') :
  ∃ H b g, b ∈ H.live ∧ g ∈ H.live ∧ g ∉ p.files.heap.live ∧
    (∀ a ∈ p.files.heap.live, a ∈ H.live) ∧ p' = { p with
      files := { p.files with heap := H }
      stack := some b
      pgrp := some ⟨g, 1⟩ }
  := by
  have hstack : ∀ {t}, newStack p = .done () t → ∃ H b, b ∈ H.live ∧
      (∀ a ∈ p.files.heap.live, a ∈ H.live) ∧
      t = { p with files := { p.files with heap := H }, stack := some b } := by
    intro t ht
    rw [newStack, bind_done (get_apply p)] at ht
    cases hb : p.stack with
    | some b =>
        rw [hb] at ht
        cases ht
        exact ⟨p.files.heap, b, h₀.stack b hb, fun a ha => ha, by rw [← hb]⟩
    | none =>
        rw [hb] at ht
        obtain ⟨b, t, halloc, ht⟩ := bind_eq_done_iff.mp ht
        obtain ⟨-, H, hlive, rfl⟩ := mustAlloc_cases halloc
        cases ht
        refine ⟨H, b, hlive ▸ List.mem_cons_self, fun a ha => ?_, rfl⟩
        rw [hlive]
        exact List.mem_cons_of_mem b ha
  obtain ⟨u, t, hnew, hgroup⟩ := bind_eq_done_iff.mp hrun
  obtain ⟨H, b, hb, hold, rfl⟩ := hstack hnew
  obtain ⟨g, t, halloc, hgroup⟩ := bind_eq_done_iff.mp hgroup
  obtain ⟨hg, H', hlive, rfl⟩ := mustAlloc_cases halloc
  cases hgroup
  refine ⟨H', b, g, ?_, ?_, fun ha => hg (hold g ha), fun a ha => ?_, rfl⟩
  · rw [hlive]
    exact List.mem_cons_of_mem g hb
  · rw [hlive]
    exact List.mem_cons_self
  · rw [hlive]
    exact List.mem_cons_of_mem g (hold a ha)

/-- The portals of a process without open files. -/
theorem Files.Inv.of_table {s : Files} (hslash : At s.slash.2 (rootNode pf))
    (hdot : At s.dot.2 (rootNode pf)) (htable : s.table = fun _ => none)
    (hs : s.slash.1 ∈ own ∧ s.slash.1 ∈ s.heap.live) (hd : s.dot.1 ∈ own ∧ s.dot.1 ∈ s.heap.live)
    (hne : s.slash.1 ≠ s.dot.1) :
  s.Inv pf own
  := by
  have hnone : ∀ fd, s.held (.descriptor fd) = none := fun fd =>
    held_descriptor_of_none (congrFun htable fd)
  refine ⟨hslash, hdot, ?_, ?_, ?_, ?_⟩
  · intro fd a p hfd
    rw [htable] at hfd
    cases hfd
  · intro fd hfd
    rw [htable] at hfd
    contradiction
  · intro i a hi
    cases i with
    | slash =>
        cases hi
        exact hs
    | dot =>
        cases hi
        exact hd
    | descriptor fd =>
        rw [hnone] at hi
        cases hi
  · intro i j a hi hj
    cases i with
    | slash =>
        cases hi
        cases j with
        | slash => rfl
        | dot => exact absurd (Option.some.inj hj).symm hne
        | descriptor fd =>
            rw [hnone] at hj
            cases hj
    | dot =>
        cases hi
        cases j with
        | slash => exact absurd (Option.some.inj hj) hne
        | dot => rfl
        | descriptor fd =>
            rw [hnone] at hj
            cases hj
    | descriptor fd =>
        rw [hnone] at hi
        cases hi

/-- The portals of `schedProc` are in new blocks, and nothing is freed. -/
theorem openPortals_inv {s s' : Files} (htable : s.table = fun _ => none) {r : ℤ}
    (hrun : openPortals pf s = .done r s') :
  s'.Inv pf (newBlocks s s') ∧ ∀ a ∈ s.heap.live, a ∈ s'.heap.live
  := by
  obtain ⟨x, t, hslash, hrun⟩ := bind_eq_done_iff.mp hrun
  obtain ⟨H₁, hattach, rfl⟩ := onHeap_cases hslash
  obtain ⟨hx, hxroot, hlive₁⟩ := attach_cases hattach
  obtain ⟨u, t, hset, hrun⟩ := bind_eq_done_iff.mp hrun
  cases hset
  obtain ⟨y, t, hdot, hrun⟩ := bind_eq_done_iff.mp hrun
  obtain ⟨H₂, hattach', rfl⟩ := onHeap_cases hdot
  obtain ⟨hy, hyroot, hlive₂⟩ := attach_cases hattach'
  obtain ⟨u, t, hset, hrun⟩ := bind_eq_done_iff.mp hrun
  cases hset
  have hfresh : x.1 ∉ s.heap.live := hx ▸ s.heap.next_notMem
  have hfresh' : y.1 ∉ x.1 :: s.heap.live := by
    rw [hy, hx, ← hlive₁]
    exact H₁.next_notMem
  have hlive : H₂.live = y.1 :: x.1 :: s.heap.live := by rw [hlive₂, ← hy, hlive₁, hx]
  have hinv : Files.Inv pf (newBlocks s { s with heap := H₂, slash := x, dot := y })
      { s with heap := H₂, slash := x, dot := y } := by
    have hxlive : x.1 ∈ H₂.live := by simp [hlive]
    have hylive : y.1 ∈ H₂.live := by simp [hlive]
    refine .of_table hxroot hyroot htable ⟨⟨hxlive, hfresh⟩, hxlive⟩ ⟨⟨hylive, ?_⟩, hylive⟩ ?_
    · exact fun hy => hfresh' (List.mem_cons_of_mem _ hy)
    · rintro (hxy : x.1 = y.1)
      exact hfresh' (hxy ▸ List.mem_cons_self)
  have heffect := sysopen_effect hinv hrun
  have hold : ∀ a ∈ s.heap.live, a ∈ H₂.live := by
    intro a ha
    rw [hlive]
    exact List.mem_cons_of_mem _ (List.mem_cons_of_mem _ ha)
  constructor
  · refine (hinv.effect heffect).mono fun a ha hlive' => ⟨hlive', ?_⟩
    obtain ⟨-, ha⟩ | ⟨-, ha⟩ := ha
    · exact ha
    · exact fun hmem => ha (hold a hmem)
  · intro a ha
    refine heffect.live (hold a ha) fun i hi => ?_
    exact (hinv.blocks.mem i a hi).1.2 ha

/-- The portals of a process that runs, its group and its stack. -/
structure Proc.Inv (pf : Platform) (own : Set ℕ) (p : Proc) : Prop where
  files : p.files.Inv pf own
  pgrp : ∃ g, p.pgrp = some ⟨g, 1⟩ ∧ g ∈ own ∧ g ∈ p.files.heap.live ∧
    ∀ i, p.files.held i ≠ some g
  stack : p.stack ≠ some p.files.slash.1

theorem schedProc_inv (h₀ : p₀.OnFreelist) {u : Unit} (hrun : schedProc pf p₀ = .done u p) :
  p.Inv pf (newBlocks p₀.files p.files)
  := by
  obtain ⟨v, t, hnew, hrun⟩ := bind_eq_done_iff.mp hrun
  obtain ⟨H, b, g, hb, hg, hg₀, hold, rfl⟩ := newProc_cases h₀ hnew
  obtain ⟨tty, t, hopen, hrun⟩ := bind_eq_done_iff.mp hrun
  obtain ⟨s, hportals, rfl⟩ := onFiles_cases hopen
  obtain ⟨hinv, hlive⟩ := openPortals_inv (s := { p₀.files with heap := H }) h₀.table hportals
  cases hrun
  have hnot : ∀ {i a}, s.held i = some a → a ∉ H.live := fun hi => (hinv.blocks.mem _ _ hi).1.2
  refine ⟨hinv.mono ?_, ⟨g, rfl, ⟨hlive g hg, hg₀⟩, hlive g hg, ?_⟩, ?_⟩
  · rintro a ⟨ha, ha'⟩ -
    exact ⟨ha, fun hmem => ha' (hold a hmem)⟩
  · exact fun i hi => hnot hi hg
  · intro hstack
    exact hnot (i := .slash) (congrArg some (Option.some.inj hstack).symm) hb

/-! ### Running -/

theorem Proc.Inv.call (h : p.Inv pf own) (c : Call) {r : Answer} {s : Files}
    (hrun : c.run pf p.files = .done r s) :
  Proc.Inv pf (own ∪ newBlocks p.files s) { p with files := s }
  := by
  have heffect := c.effect h.files hrun
  obtain ⟨g, hg, hgown, hglive, hgheld⟩ := h.pgrp
  refine ⟨h.files.effect heffect, ⟨g, hg, .inl hgown, heffect.live hglive hgheld, ?_⟩, ?_⟩
  · intro i hi
    obtain hi | hnot := heffect.held hi
    · exact hgheld i hi
    · exact hnot hglive
  · change p.stack ≠ some s.slash.1
    rw [heffect.slash]
    exact h.stack

theorem Proc.Inv.others (h : p.Inv pf own) {H : Heap} (hothers : p.files.heap.Others own H)
    (m : Machine) :
  Proc.Inv pf own { p with files := { p.files with heap := H, machine := m } }
  := by
  obtain ⟨g, hg, hgown, hglive, hgheld⟩ := h.pgrp
  refine ⟨⟨h.files.slash, h.files.dot, h.files.nodes, h.files.bound, ?_⟩,
    ⟨g, hg, hgown, (hothers.own g hgown).mpr hglive, hgheld⟩, h.stack⟩
  exact h.files.blocks.mono fun i a _ ha => ⟨ha.1, (hothers.own a ha.1).mpr ha.2⟩

/-! ### The end -/

/-- The block of `slash` is allocated, and it is not the stack. -/
structure Proc.Keeps (own : Set ℕ) (p : Proc) : Prop where
  owned : p.files.slash.1 ∈ own
  live : p.files.slash.1 ∈ p.files.heap.live
  stack : p.stack ≠ some p.files.slash.1

/-- The block of the group, and that of `slash`, after the descriptors were freed. -/
structure Proc.Ended (own : Set ℕ) (p : Proc) : Prop extends p.Keeps own where
  pgrp : ∃ g, p.pgrp = some ⟨g, 1⟩ ∧ g ∈ own ∧ g ∈ p.files.heap.live ∧ p.files.slash.1 ≠ g

theorem syskfree_cases {H H' : Heap} {a : ℕ} {u : Unit} (hrun : syskfree a H = .done u H') :
  a ∈ H.live ∧ H' = H.free a
  := by
  by_cases ha : a ∈ H.live
  · rw [syskfree_of_mem ha] at hrun
    cases hrun
    exact ⟨ha, rfl⟩
  · rw [syskfree, bind_done (get_apply H), if_neg ha] at hrun
    cases hrun

/-- The loops over the descriptors free their portals only. -/
theorem freeLoop_cases {s s' : Files} {fds : List ℕ} {u : Unit}
    (hrun : freeLoop fds s = .done u s') :
  ∃ H, s' = { s with heap := H } ∧ ∀ a ∈ s.heap.live,
    (∀ fd, s.held (.descriptor fd) ≠ some a) → a ∈ H.live
  := by
  induction fds generalizing s with
  | nil =>
      cases hrun
      exact ⟨_, rfl, fun a ha _ => ha⟩
  | cons fd fds ih =>
      rw [freeLoop, bind_done (get_apply s)] at hrun
      cases hfd : s.table fd with
      | none =>
          rw [hfd] at hrun
          exact ih hrun
      | some x =>
          obtain ⟨a, q⟩ := x
          rw [hfd] at hrun
          obtain ⟨v, t, hfree, hrun⟩ := bind_eq_done_iff.mp hrun
          obtain ⟨H, hH, rfl⟩ := onHeap_cases hfree
          obtain ⟨H', rfl, hkeep⟩ := ih hrun
          refine ⟨H', rfl, fun b hb hheld => hkeep b ?_ hheld⟩
          have hne : b ≠ a := by
            rintro rfl
            exact hheld fd (held_descriptor hfd)
          change b ∈ H.live
          rw [(syskfree_cases hH).2]
          exact (List.mem_erase_of_ne hne).mpr hb

theorem Proc.Inv.freed (h : p.Inv pf own) {fds : List ℕ} {u : Unit}
    (hrun : onFiles (freeLoop fds) p = .done u p') :
  p'.Ended own
  := by
  obtain ⟨s, hloop, rfl⟩ := onFiles_cases hrun
  obtain ⟨H, rfl, hkeep⟩ := freeLoop_cases hloop
  obtain ⟨g, hg, hgown, hglive, hgheld⟩ := h.pgrp
  have hslash := h.files.blocks.mem .slash _ rfl
  refine ⟨⟨hslash.1, hkeep _ hslash.2 ?_, h.stack⟩, g, hg, hgown, hkeep g hglive ?_, ?_⟩
  · intro fd hfd
    cases h.files.blocks.inj (.descriptor fd) .slash _ hfd rfl
  · exact fun fd => hgheld (.descriptor fd)
  · exact fun hne => hgheld .slash (congrArg some hne)

theorem Proc.Keeps.others (h : p.Keeps own) {H : Heap} (hothers : p.files.heap.Others own H)
    (m : Machine) :
  Proc.Keeps own { p with files := { p.files with heap := H, machine := m } }
  := ⟨h.owned, (hothers.own _ h.owned).mpr h.live, h.stack⟩

theorem Proc.Ended.others (h : p.Ended own) {H : Heap} (hothers : p.files.heap.Others own H)
    (m : Machine) :
  Proc.Ended own { p with files := { p.files with heap := H, machine := m } }
  := by
  obtain ⟨g, hg, hgown, hglive, hne⟩ := h.pgrp
  exact ⟨h.toKeeps.others hothers m, g, hg, hgown, (hothers.own g hgown).mpr hglive, hne⟩

/-- `recycleProc` frees the group only. -/
theorem recycleProc_eq {g : ℕ} (hg : p.pgrp = some ⟨g, 1⟩) (hlive : g ∈ p.files.heap.live) :
  recycleProc p = .done () { p with
    files := { p.files with heap := p.files.heap.free g, table := fun _ => none }
    pgrp := none }
  := by
  have hleave : leaveProcGroup { p with files := { p.files with table := fun _ => none } } =
      .done () { p with
        files := { p.files with heap := p.files.heap.free g, table := fun _ => none }
        pgrp := some ⟨g, 0⟩ } := by
    rw [leaveProcGroup, bind_done (get_apply _)]
    simp only [hg]
    apply (bind_done (modify_apply _ _)).trans
    exact onFiles_done (onHeap_done (syskfree_of_mem hlive))
  have hzero : onFiles (modify fun s => { s with table := fun _ => none }) p =
      .done () { p with files := { p.files with table := fun _ => none } } := rfl
  rw [recycleProc, bind_done hzero, bind_done hleave]
  rfl

theorem Proc.Ended.recycle (h : p.Ended own) {u : Unit} (hrun : recycleProc p = .done u p') :
  p'.Keeps own
  := by
  obtain ⟨g, hg, hgown, hglive, hne⟩ := h.pgrp
  rw [recycleProc_eq hg hglive] at hrun
  cases hrun
  exact ⟨h.owned, (List.mem_erase_of_ne hne).mpr h.live, h.stack⟩

/-! ### Every life -/

/-- What is known of a process in a phase of its life. -/
def Phase.Inv (pf : Platform) (own : Set ℕ) (p : Proc) : Phase → Prop
  | .running => p.Inv pf own
  | .dead => p.Ended own
  | .recycled => p.Keeps own

theorem Life.inv (h₀ : p₀.OnFreelist) {phase : Phase} (h : Life pf p₀ phase p own) :
  phase.Inv pf own p
  := by
  induction h with
  | sched hrun => exact schedProc_inv h₀ hrun
  | call c _ hrun ih => exact Proc.Inv.call ih c hrun
  | @others phase p own H m _ hothers ih =>
      cases phase with
      | running => exact Proc.Inv.others ih hothers m
      | dead => exact Proc.Ended.others ih hothers m
      | recycled => exact Proc.Keeps.others ih hothers m
  | exit _ hrun ih => exact Proc.Inv.freed ih hrun
  | sigAbort _ hrun ih => exact Proc.Inv.freed ih hrun
  | recycle _ hrun ih => exact Proc.Ended.recycle ih hrun

/-! ### Lives that are completed -/

/-- The loops over the descriptors return. -/
theorem freeLoop_returns {s : Files} {fds : List ℕ} (hnodup : fds.Nodup)
    (hlive : ∀ fd ∈ fds, ∀ a, s.held (.descriptor fd) = some a → a ∈ s.heap.live)
    (hinj : ∀ i j a, s.held i = some a → s.held j = some a → i = j) :
  ∃ s', freeLoop fds s = .done () s'
  := by
  induction fds generalizing s with
  | nil => exact ⟨s, rfl⟩
  | cons fd fds ih =>
      have hfree : ∃ H, freeLoop (fd :: fds) s = freeLoop fds { s with heap := H } ∧
          ∀ fd' ∈ fds, ∀ a, s.held (.descriptor fd') = some a → a ∈ H.live := by
        have hrest : ∀ fd' ∈ fds, ∀ a, s.held (.descriptor fd') = some a → a ∈ s.heap.live :=
          fun fd' hfd' => hlive fd' (List.mem_cons_of_mem fd hfd')
        cases hfd : s.table fd with
        | none =>
            refine ⟨s.heap, ?_, hrest⟩
            rw [freeLoop, bind_done (get_apply s), hfd]
        | some x =>
            obtain ⟨a, q⟩ := x
            have hheld : s.held (.descriptor fd) = some a := held_descriptor hfd
            have ha := hlive fd List.mem_cons_self a hheld
            refine ⟨s.heap.free a, ?_, fun fd' hfd' b hb => ?_⟩
            · rw [freeLoop, bind_done (get_apply s), hfd]
              exact bind_done (onHeap_done (syskfree_of_mem ha))
            · have hne : b ≠ a := by
                rintro rfl
                cases hinj _ _ _ hb hheld
                exact (List.nodup_cons.mp hnodup).1 hfd'
              exact (List.mem_erase_of_ne hne).mpr (hrest fd' hfd' b hb)
      obtain ⟨H, heq, hH⟩ := hfree
      rw [heq]
      exact ih (List.nodup_cons.mp hnodup).2 hH hinj

/-- A process that runs may exit, and is then recycled. -/
theorem Life.exists_recycled (h₀ : p₀.OnFreelist) (h : Life pf p₀ .running p own) :
  ∃ p', Life pf p₀ .recycled p' own
  := by
  have hinv : p.Inv pf own := Life.inv h₀ h
  obtain ⟨s, hloop⟩ := freeLoop_returns (List.nodup_range (n := maxFd))
    (fun fd _ a ha => (hinv.files.blocks.mem _ a ha).2) hinv.files.blocks.inj
  have hdead := Life.exit h (onFiles_done hloop)
  obtain ⟨g, hg, -, hglive, -⟩ := (Life.inv h₀ hdead : Proc.Ended own _).pgrp
  exact ⟨_, .recycle hdead (recycleProc_eq hg hglive)⟩

/-- With memory for everything the portals of `schedProc` are made, and the console is opened. -/
theorem openPortals_opened (pf : Platform) {s : Files} (hgrants : ∀ n, s.heap.grants n = true) :
  ∃ q q' r s', openPortals pf s = .done r s' ∧
    Opened (rootNode pf) (ttyPath pf) capReadWrite { s with
      heap := s.heap.alloc.alloc
      slash := (s.heap.next, q)
      dot := (s.heap.alloc.next, q') } r s'
  := by
  obtain ⟨q, hslash, hq⟩ := attach_of_granted pf .root [] (hgrants s.heap.next)
  obtain ⟨q', hdot, -⟩ := attach_of_granted pf .root [] (H := s.heap.alloc) (hgrants _)
  have hopens : Opens (rootNode pf) (ttyPath pf) s.heap.alloc.alloc := by
    refine .inr ⟨.inl (hgrants _), .inr ⟨?_, fun k _ => hgrants _⟩⟩
    cases pf <;> decide
  have hstart : At (Files.start { s with
      heap := s.heap.alloc.alloc
      slash := (s.heap.next, q)
      dot := (s.heap.alloc.next, q') } (ttyPath pf)) (rootNode pf) := by
    cases pf <;> exact hq
  obtain ⟨r, s', hrun, hopened⟩ :=
    sysopen_returns hstart (rootNode_not_isMount pf) hopens capReadWrite
  refine ⟨q, q', r, s', ?_, hopened⟩
  rw [openPortals, bind_done (onHeap_done hslash)]
  apply (bind_done (modify_apply _ _)).trans
  apply (bind_done (onHeap_done hdot)).trans
  apply (bind_done (modify_apply _ _)).trans
  exact hrun

/-- A process that was never made, with memory for everything. -/
def freshProc : Proc := ⟨{ freshFiles with heap := freshHeap }, 0, none, none⟩

theorem freshProc_onFreelist : freshProc.OnFreelist := ⟨rfl, nofun⟩

theorem exists_life (pf : Platform) :
  ∃ p own, Life pf freshProc .running p own
  := by
  have hnew : ∃ t, newProc freshProc = .done () t ∧ ∀ n, t.files.heap.grants n = true :=
    ⟨_, rfl, fun _ => rfl⟩
  obtain ⟨t, hnew, hgrants⟩ := hnew
  obtain ⟨-, -, r, s, hopen, -⟩ := openPortals_opened pf hgrants
  have hrun : schedProc pf freshProc = .done () { t with files := s, tty := r } := by
    rw [schedProc, bind_done hnew]
    exact bind_done (onFiles_done hopen)
  exact ⟨_, _, .sched hrun⟩

end Dev
