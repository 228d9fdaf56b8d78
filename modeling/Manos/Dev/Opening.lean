import Manos.Dev.Files
import Manos.Dev.Writing

/-!
# Opening and closing

What `mkPath`, `syswalk`, `sysopen` and `sysclose` do to the blocks that are allocated and to the
table of descriptors, for every pattern of requests that are granted, and what `sysread` does to an
open descriptor.
-/

namespace Dev

open Exec

variable {pf : Platform} {v : Node pf} {p : Portal} {H : Heap} {s : Files} {path : Name} {caps : ℕ}

/-! ### Paths -/

/-- The buffer of a path, and the number of its slashes. -/
def pathBuf (path : Name) : List Byte × ℕ :=
  let c := if path.head? = some slashChar then path.tail else path
  endLoop (c ++ List.replicate (path.length + 1 - c.length) 0)

/-- The number of the elements of a path. -/
def pathCount (path : Name) : ℕ :=
  let nelems := (if path.head? = some slashChar then 1 else 0) + (pathBuf path).2
  if nelems = 0 ∧ path.length ≠ 0 then 1 else nelems

/-- The elements of a path. -/
def pathNames (path : Name) : List Name :=
  (elemsLoop (pathBuf path).1 (pathCount path) 0).map fun c => cstr ((pathBuf path).1.drop c)

theorem pathCount_eq_zero_iff (path : Name) :
  pathCount path = 0 ↔ path = []
  := by
  have hcount : ∀ n : ℕ, (if n = 0 ∧ path.length ≠ 0 then 1 else n) = 0 → path.length = 0 := by
    intro n h
    split at h <;> omega
  constructor
  · intro h
    exact List.length_eq_zero_iff.mp (hcount _ h)
  · intro h
    rw [h]
    rfl

/-- What `mkPath` gives: the blocks of a path, the elements before the rest. -/
structure Made (path : Name) (H : Heap) (pth : Path) (H' : Heap) : Prop where
  addr : pth.addr = H.next
  elemsAddr : pth.elemsAddr = if H.grants (H.next + 1) then some (H.next + 1) else none
  names : pth.names = pathNames path
  live : H'.live = pth.elemsAddr.toList ++ H.next :: H.live
  grants : H'.grants = H.grants
  next : H'.next = H.next + 2

theorem mkPath_refused (h : H.grants H.next = false) :
  mkPath path H = .done none H.refuse
  := by
  rw [mkPath, bind_done (syskmalloc_refused h)]
  rfl

theorem mkPath_done (h : H.grants H.next = true) (he : H.grants (H.next + 1) = true) :
  mkPath path H = .done (some ⟨H.next, some (H.next + 1), (pathBuf path).1,
    elemsLoop (pathBuf path).1 (pathCount path) 0⟩) H.alloc.alloc
  := by
  have he' : H.alloc.grants H.alloc.next = true := he
  rw [mkPath, bind_done (syskmalloc_granted h)]
  apply (bind_done (syskmalloc_granted he')).trans
  rfl

/-- `mkPath` needs memory for the elements, if there are any. -/
theorem mkPath_granted (h : H.grants H.next = true)
    (he : H.grants (H.next + 1) = true ∨ path = []) :
  ∃ pth H', mkPath path H = .done (some pth) H' ∧ Made path H pth H'
  := by
  cases hg : H.grants (H.next + 1) with
  | true =>
      refine ⟨_, _, mkPath_done h hg, rfl, ?_, rfl, rfl, rfl, rfl⟩
      rw [hg]
      rfl
  | false =>
      have hpath : path = [] := he.resolve_left (by rw [hg]; exact Bool.false_ne_true)
      have hg' : H.alloc.grants H.alloc.next = false := hg
      subst hpath
      refine ⟨⟨H.next, none, (pathBuf []).1, []⟩, H.alloc.refuse, ?_, rfl, ?_, rfl, rfl, rfl, rfl⟩
      · rw [mkPath, bind_done (syskmalloc_granted h)]
        apply (bind_done (syskmalloc_refused hg')).trans
        rfl
      · rw [hg]
        rfl

/-- Without memory for the elements `mkPath` stores through a null pointer. -/
theorem mkPath_stops (h : H.grants H.next = true) (he : H.grants (H.next + 1) = false)
    (hpath : path ≠ []) :
  ∃ f H', mkPath path H = .stop f H'
  := by
  have hcount : pathCount path ≠ 0 := fun h => hpath ((pathCount_eq_zero_iff path).mp h)
  have he' : H.alloc.grants H.alloc.next = false := he
  refine ⟨.null "elems", H.alloc.refuse, ?_⟩
  rw [mkPath, bind_done (syskmalloc_granted h)]
  apply (bind_done (syskmalloc_refused he')).trans
  exact (congrFun (if_pos hcount) H.alloc.refuse).trans (bind_stop rfl)

/-! ### Walks -/

/-- The walk returns: no mount is in the way and there is memory, or there is none at the start. -/
def Walks (v : Node pf) (path : List Name) (H : Heap) : Prop :=
  (blocked v path = false ∧ H.Grants (allocations v path)) ∨ H.grants H.next = false

/-- What a walk gives: nothing, or a portal in one more block at the node that the path leads to. -/
def Walked (v : Node pf) (names : List Name) (H : Heap) (r : Option (ℕ × Portal)) (H' : Heap) :
    Prop :=
  match r with
  | none => (H.grants H.next = false ∨ resolve v names = none) ∧ H'.live = H.live
  | some (a, p) =>
      H.grants H.next = true ∧ (∃ w, resolve v names = some w ∧ At p w) ∧
        H'.live = a :: H.live ∧ a ∉ H.live

theorem Resolved.walked {names : List Name} {o : Outcome Heap (Option (ℕ × Portal))}
    (h : Resolved v names H.live o) (hH : H.grants H.next = true) :
  ∃ r H', o = .done r H' ∧ Walked v names H r H'
  := by
  rw [Resolved] at h
  split at h
  · rename_i w hw
    obtain ⟨a, q, H', hrun, hq, hlive, ha⟩ := h
    exact ⟨_, H', hrun, hH, ⟨w, hw, hq⟩, hlive, ha⟩
  · rename_i hnone
    obtain ⟨H', hrun, hlive⟩ := h
    exact ⟨_, H', hrun, .inr hnone, hlive⟩

/-- A walk that meets the condition returns, and the others stop. -/
theorem syswalk_spec (hp : At p v) (hm : v.isMount = false) (names : List Name) (H : Heap) :
  (Walks v names H → ∃ r H', syswalk pf p names H = .done r H' ∧ Walked v names H r H') ∧
    (¬ Walks v names H → ∃ f H', syswalk pf p names H = .stop f H')
  := by
  by_cases hfile : names ≠ [] ∧ v.isDir = false
  · obtain ⟨hrun, hblocked, hnone⟩ := syswalk_file hp hfile.2 hfile.1 H
    have hwalks : Walks v names H := by
      refine .inl ⟨hblocked, ?_⟩
      rw [allocations, if_pos hfile]
      exact H.grants_zero
    exact ⟨fun _ => ⟨none, H, hrun, .inr hnone, rfl⟩, fun h => absurd hwalks h⟩
  · have hdir : names ≠ [] → v.isDir = true := by
      intro hnames
      by_contra hv
      exact hfile ⟨hnames, by simpa using hv⟩
    rw [Walks, allocations, if_neg hfile, H.grants_alloc]
    cases hH : H.grants H.next with
    | false =>
        refine ⟨fun _ => ⟨none, H.refuse, syswalk_refused hp hdir hH, .inl hH, rfl⟩, fun h => ?_⟩
        exact absurd (.inr rfl) h
    | true =>
        obtain ⟨hresolved, hstops⟩ := syswalk_granted hp hdir hm hH
        rw [walkable_alloc hdir] at hresolved hstops
        constructor
        · rintro (⟨hopen, -, hmem⟩ | h)
          · exact (hresolved ⟨hopen, hmem⟩).walked hH
          · cases h
        · intro h
          exact hstops fun hwalk => h (.inl ⟨hwalk.1, rfl, hwalk.2⟩)

/-! ### Opening -/

/-- The descriptor that is taken is the lowest one that is free. -/
theorem firstFree_eq_some_iff {table : ℕ → Option (ℕ × Portal)} {fd : ℕ} :
  firstFree table = some fd ↔ fd < maxFd ∧ table fd = none ∧ ∀ j < fd, table j ≠ none
  := by
  rw [firstFree, List.find?_range_eq_some]
  simp only [Option.isNone_iff_eq_none, List.mem_range, Bool.not_eq_true',
    Option.isNone_eq_false_iff, Option.isSome_iff_ne_none]
  tauto

theorem onHeap_done {α : Type} {x : Exec Heap α} {r : α} {H' : Heap} (h : x s.heap = .done r H') :
  onHeap x s = .done r { s with heap := H' }
  := by
  rw [onHeap, onPart, h]

theorem onHeap_stop {α : Type} {x : Exec Heap α} {f : Fault} {H' : Heap}
    (h : x s.heap = .stop f H') :
  onHeap x s = .stop f { s with heap := H' }
  := by
  rw [onHeap, onPart, h]

/-- The portal from which a path starts. -/
def Files.start (s : Files) (path : Name) : Portal :=
  (if path.head? = some slashChar then s.slash else s.dot).2

/-- The path can be opened: there is memory for its elements, and the walk returns. -/
def Opens (v : Node pf) (path : Name) (H : Heap) : Prop :=
  H.grants H.next = false ∨ (H.grants (H.next + 1) = true ∨ path = []) ∧
    (H.grants (H.next + 2) = false ∨ blocked v (pathNames path) = false ∧
      ∀ k < allocations v (pathNames path), H.grants (H.next + 2 + k) = true)

/-- The block of the elements of a path, which is not freed. -/
def elemsBlock (H : Heap) : List ℕ :=
  if H.grants H.next = true ∧ H.grants (H.next + 1) = true then [H.next + 1] else []

/-- What `sysopen` returns, and the state after it. -/
inductive Opened (v : Node pf) (path : Name) (caps : ℕ) (s : Files) : ℤ → Files → Prop where
  | refused (H : Heap) (e : Errno) (hlive : H.live = elemsBlock s.heap ++ s.heap.live)
      (hwhy : s.heap.grants s.heap.next = false ∨ s.heap.grants (s.heap.next + 2) = false ∨
        resolve v (pathNames path) = none ∨ firstFree s.table = none) :
      Opened v path caps s (-1) { s with heap := H, errno := e }
  | opened (H : Heap) (fd a : ℕ) (p : Portal) (w : Node pf) (hfd : firstFree s.table = some fd)
      (hnode : resolve v (pathNames path) = some w) (hp : At p w)
      (hpath : s.heap.grants s.heap.next = true) (hportal : s.heap.grants (s.heap.next + 2) = true)
      (hlive : H.live = a :: (elemsBlock s.heap ++ s.heap.next :: s.heap.live))
      (ha : a ∉ elemsBlock s.heap ++ s.heap.next :: s.heap.live) :
      Opened v path caps s fd { s with
        heap := H
        errno := .eperm
        table := Function.update s.table fd (some (a, openDev p caps)) }

/-- A descriptor that is free is taken. -/
theorem takeDescriptor_free {w : Node pf} {fd : ℕ} (hp : At p w) (hfd : firstFree s.table = some fd)
    (pth : Path) (a caps : ℕ) :
  takeDescriptor pth a p caps s =
    .done fd { s with table := Function.update s.table fd (some (a, openDev p caps)) }
  := by
  have hdev := onHeap_done (s := s) (deviceAt_index w.device s.heap)
  rw [← hp.device] at hdev
  rw [takeDescriptor, bind_done (get_apply s), hfd]
  apply bind_done hdev

/-- Without a free descriptor the portal and the path are freed. -/
theorem takeDescriptor_full {pth : Path} {a : ℕ} {K L : List ℕ} (hfull : firstFree s.table = none)
    (hlive : s.heap.live = a :: (K ++ pth.addr :: L)) (ha : a ∉ K ++ pth.addr :: L)
    (hK : pth.addr ∉ K) (p : Portal) (caps : ℕ) :
  ∃ H, takeDescriptor pth a p caps s = .done (-1) { s with heap := H, errno := .emfile } ∧
    H.live = K ++ L
  := by
  have hne : a ≠ pth.addr := fun h => ha (h ▸ List.mem_append_right K List.mem_cons_self)
  have hlive₁ : (s.heap.free pth.addr).live = a :: (K ++ L) := by
    rw [Heap.free_live, hlive, List.erase_cons_tail (by simpa using hne),
      List.erase_append_right _ hK, List.erase_cons_head]
  have hfree₁ : syskfree pth.addr s.heap = .done () (s.heap.free pth.addr) := by
    apply syskfree_of_mem
    rw [hlive]
    simp
  have hfree₂ : syskfree a (s.heap.free pth.addr) = .done () ((s.heap.free pth.addr).free a) := by
    apply syskfree_of_mem
    rw [hlive₁]
    exact List.mem_cons_self
  refine ⟨(s.heap.free pth.addr).free a, ?_, ?_⟩
  · rw [takeDescriptor, bind_done (get_apply s), hfull]
    apply (bind_done (modify_apply _ s)).trans
    apply (bind_done (onHeap_done (s := { s with errno := .emfile }) hfree₁)).trans
    apply bind_done (onHeap_done hfree₂)
  · rw [Heap.free_live, hlive₁, List.erase_cons_head]

/-- `sysopen` returns for the paths that can be opened. -/
theorem sysopen_returns (hp : At (s.start path) v) (hm : v.isMount = false)
    (h : Opens v path s.heap) (caps : ℕ) :
  Returns s (sysopen pf path caps) (Opened v path caps s)
  := by
  rw [sysopen]
  cases hpath : s.heap.grants s.heap.next with
  | false =>
      refine .step (modify_apply _ s) (.step (onHeap_done (mkPath_refused hpath)) (.pure ?_))
      have hblock : elemsBlock s.heap = [] := if_neg fun hb => by simp [hpath] at hb
      refine .refused s.heap.refuse .eperm ?_ (.inl hpath)
      rw [hblock]
      rfl
  | true =>
      obtain h | ⟨helems, hwalk⟩ := h
      · rw [hpath] at h
        cases h
      obtain ⟨pth, H₁, hrun, hmade⟩ := mkPath_granted hpath helems
      have hblock : pth.elemsAddr.toList = elemsBlock s.heap := by
        rw [hmade.elemsAddr, elemsBlock, hpath]
        simp only [true_and]
        split <;> rfl
      have hnext : pth.addr ∉ elemsBlock s.heap := by
        rw [hmade.addr, elemsBlock]
        split
        · simp
        · apply List.not_mem_nil
      have hwalks : Walks v pth.names H₁ := by
        rw [Walks, Heap.Grants, hmade.grants, hmade.next, hmade.names]
        exact hwalk.symm
      have hlive₁ : H₁.live = elemsBlock s.heap ++ pth.addr :: s.heap.live := by
        rw [hmade.live, hblock, hmade.addr]
      obtain ⟨r, H₂, hrun₂, hwalked⟩ := (syswalk_spec hp hm pth.names H₁).1 hwalks
      rw [hmade.names] at hwalked
      refine .step (modify_apply _ s) (.step (onHeap_done hrun) (.get ?_))
      refine .step (onHeap_done hrun₂) ?_
      cases r with
      | none =>
          obtain ⟨hwhy, hlive₂⟩ := hwalked
          have hfree : syskfree pth.addr H₂ = .done () (H₂.free pth.addr) := by
            apply syskfree_of_mem
            rw [hlive₂, hlive₁]
            simp
          refine .step (onHeap_done hfree) (.pure ?_)
          refine .refused (H₂.free pth.addr) .eperm ?_ (.inr ?_)
          · rw [Heap.free_live, hlive₂, hlive₁, List.erase_append_right _ hnext,
              List.erase_cons_head]
          · rw [hmade.grants, hmade.next] at hwhy
            exact hwhy.imp id .inl
      | some ap =>
          obtain ⟨a, p⟩ := ap
          obtain ⟨hportal, ⟨w, hw, hat⟩, hlive₂, ha⟩ := hwalked
          rw [hlive₁] at hlive₂ ha
          cases hfd : firstFree s.table with
          | none =>
              obtain ⟨H₃, hrun₃, hlive₃⟩ := takeDescriptor_full (s := { s with
                heap := H₂
                errno := .eperm }) hfd hlive₂ ha hnext p caps
              exact ⟨-1, _, hrun₃, .refused H₃ .emfile hlive₃ (.inr (.inr (.inr hfd)))⟩
          | some fd =>
              have hrun₃ := takeDescriptor_free (s := { s with
                heap := H₂
                errno := .eperm }) hat hfd pth a caps
              rw [hmade.grants, hmade.next] at hportal
              rw [hmade.addr] at hlive₂ ha
              exact ⟨_, _, hrun₃, .opened H₂ fd a p w hfd hw hat hpath hportal hlive₂ ha⟩

/-- `sysopen` stops for the others. -/
theorem sysopen_stops (hp : At (s.start path) v) (hm : v.isMount = false)
    (h : ¬ Opens v path s.heap) (caps : ℕ) :
  ∃ f s', sysopen pf path caps s = .stop f s'
  := by
  cases hpath : s.heap.grants s.heap.next with
  | false => exact absurd (.inl hpath) h
  | true =>
      by_cases helems : s.heap.grants (s.heap.next + 1) = true ∨ path = []
      · obtain ⟨pth, H₁, hrun, hmade⟩ := mkPath_granted hpath helems
        have hwalks : ¬ Walks v pth.names H₁ := by
          intro hwalks
          rw [Walks, Heap.Grants, hmade.grants, hmade.next, hmade.names] at hwalks
          exact h (.inr ⟨helems, hwalks.symm⟩)
        obtain ⟨f, H₂, hstop⟩ := (syswalk_spec hp hm pth.names H₁).2 hwalks
        refine ⟨f, { s with heap := H₂, errno := .eperm }, ?_⟩
        rw [sysopen]
        apply (bind_done (modify_apply _ s)).trans
        apply (bind_done (onHeap_done (s := { s with errno := .eperm }) hrun)).trans
        apply (bind_done (get_apply _)).trans
        apply bind_stop (onHeap_stop hstop)
      · obtain ⟨hno, hpath'⟩ := not_or.mp helems
        obtain ⟨f, H₁, hstop⟩ := mkPath_stops hpath (by simpa using hno) hpath'
        refine ⟨f, { s with heap := H₁, errno := .eperm }, ?_⟩
        rw [sysopen]
        apply (bind_done (modify_apply _ s)).trans
        apply bind_stop (onHeap_stop (s := { s with errno := .eperm }) hstop)

/-- A call of `sysopen` that returns has found memory, and no mount at a file. -/
theorem opens_of_done (hp : At (s.start path) v) (hm : v.isMount = false) {caps : ℕ} {r : ℤ}
    {s' : Files} (h : sysopen pf path caps s = .done r s') :
  Opens v path s.heap
  := by
  by_contra hopens
  obtain ⟨f, t, hstop⟩ := sysopen_stops hp hm hopens caps
  rw [hstop] at h
  cases h

/-! ### Closing -/

/-- The device of the node can be closed: the lcd device uses the screen. -/
def Closes (w : Node pf) : Prop := w.device = .lcd → pf.lcdScreen = true

instance (w : Node pf) : Decidable (Closes w) := inferInstanceAs (Decidable (_ → _))

theorem closeUart_returns {w : Node pf} (hp : At p w) (hd : w.device = .uart) (s : Files) :
  Returns s (closeUart pf p) fun _ s' => ∃ m e, s' = { s with machine := m, errno := e }
  := by
  rw [closeUart, hp.isDir]
  cases hw : w.isDir with
  | true => exact .pure ⟨s.machine, s.errno, rfl⟩
  | false =>
      have hself := Node.info_self hp.crumb s
      have hmem := w.mem
      rw [hd] at hself hmem
      obtain ⟨i, uart, hi, -⟩ := uartSNS_contents hmem hw
      have hcontents : (mkNodeInfo p w.entry).contents = .uart i := hi
      refine .step hself ?_
      simp only [hcontents]
      by_cases hfile : (mkNodeInfo p w.entry).length = uartCtlFile ∨
          (mkNodeInfo p w.entry).length = uartDataFile
      · rw [when_pos hfile]
        cases pf with
        | k70cw => exact ⟨(), _, rfl, _, s.errno, rfl⟩
        | nice => exact ⟨(), _, rfl, _, s.errno, rfl⟩
      · rw [when_neg hfile]
        exact .pure ⟨s.machine, s.errno, rfl⟩

/-- The close functions of the devices change the machine at most. -/
theorem Device.close_returns {w : Node pf} (hp : At p w) (hw : Closes w) (s : Files) :
  Returns s (w.device.close pf p) fun _ s' => ∃ m e, s' = { s with machine := m, errno := e }
  := by
  rw [Device.close.eq_def]
  split
  · exact ⟨(), _, rfl, s.machine, .eperm, rfl⟩
  · apply closeUart_returns hp ‹_›
  · rw [closeLcd, if_pos (hw ‹_›)]
    exact .pure ⟨s.machine, s.errno, rfl⟩
  · exact .pure ⟨s.machine, s.errno, rfl⟩

theorem Device.index_lt (d : Device) :
  ¬ d.index ≥ maxDev
  := by
  cases d <;> decide

section

variable {fd a : ℕ} {w : Node pf} (hfd : fd < maxFd) (htable : s.table fd = some (a, p))
include hfd htable

/-- A call on a descriptor that is open. -/
theorem withDescriptor_open {α : Type} (refused : α) (f : ℕ → Portal → Exec Files α) :
  withDescriptor fd refused f s = f a p s
  := by
  have hrange : (0 : ℤ) ≤ fd ∧ (fd : ℤ) < maxFd := ⟨Int.natCast_nonneg fd, Int.ofNat_lt.mpr hfd⟩
  have hlookup : descriptor fd s = .done (some (a, p)) s := by
    rw [descriptor, bind_done (get_apply s), if_pos hrange, Int.toNat_natCast, htable]
    rfl
  have hpos : ¬ (fd : ℤ) < 0 := by omega
  rw [withDescriptor, bind_done hlookup, if_neg hpos]

/-- `sysclose` frees the block of an open portal and its descriptor. -/
theorem sysclose_returns (hp : At p w) (hw : Closes w) (ha : a ∈ s.heap.live) :
  Returns s (sysclose pf fd) fun _ s' => ∃ m e, s' = { s with
    heap := s.heap.free a
    machine := m
    table := Function.update s.table fd none
    errno := e }
  := by
  obtain ⟨u, s₁, hclose, m, e, rfl⟩ := Device.close_returns hp hw s
  have hdev := onHeap_done (s := s) (deviceAt_index w.device s.heap)
  have hknown : ¬ p.device ≥ maxDev := hp.device ▸ w.device.index_lt
  rw [← hp.device] at hdev
  refine ⟨(), _, ?_, m, e, rfl⟩
  rw [sysclose, withDescriptor_open hfd htable]
  apply (congrFun (if_neg hknown) s).trans
  apply (bind_done hdev).trans
  apply (bind_done hclose).trans
  apply bind_done (onHeap_done (s := { s with machine := m, errno := e }) (syskfree_of_mem ha))

/-- Without a screen `sysclose` follows a null pointer for the lcd device. -/
theorem sysclose_stops (hp : At p w) (hw : ¬ Closes w) :
  ∃ f s', sysclose pf fd s = .stop f s'
  := by
  obtain ⟨hlcd, hscreen⟩ := Classical.not_imp.mp hw
  have hdev := onHeap_done (s := s) (deviceAt_index w.device s.heap)
  have hknown : ¬ p.device ≥ maxDev := hp.device ▸ w.device.index_lt
  rw [← hp.device] at hdev
  refine ⟨.null "lcd", s, ?_⟩
  rw [sysclose, withDescriptor_open hfd htable]
  apply (congrFun (if_neg hknown) s).trans
  apply (bind_done hdev).trans
  apply bind_stop
  rw [hlcd]
  exact congrFun (if_neg hscreen) s

/-- A call of `sysclose` that returns has closed the device. -/
theorem closes_of_done (hp : At p w) {u : Unit} {s' : Files}
    (h : sysclose pf fd s = .done u s') :
  Closes w
  := by
  by_contra hw
  obtain ⟨f, t, hstop⟩ := sysclose_stops hfd htable hp hw
  rw [hstop] at h
  cases h

/-- Where `sysclose` returns, it frees the block of the portal. -/
theorem sysclose_heap (hp : At p w) (ha : a ∈ s.heap.live) {u : Unit} {s' : Files}
    (h : sysclose pf fd s = .done u s') :
  s'.heap = s.heap.free a
  := by
  have hw := closes_of_done hfd htable hp h
  obtain ⟨m, e, rfl⟩ := (sysclose_returns hfd htable hp hw ha).done h
  rfl

/-- `sysread` changes the portal of the descriptor. -/
theorem sysread_open {d : Device} (hp : p.device = d.index)
    {read : Device → ℕ → ℕ → Exec Reading ℤ} {n : ℕ} {r : ℤ} {t : Reading}
    (hread : read d n p.offset ⟨p, fun _ => none⟩ = .done r t) :
  sysread read fd n s =
    .done (r, t.buf) { s with table := Function.update s.table fd (some (a, t.portal)) }
  := by
  have hdev := onHeap_done (s := s) (deviceAt_index d s.heap)
  have hknown : ¬ p.device ≥ maxDev := hp ▸ d.index_lt
  rw [← hp] at hdev
  rw [sysread, withDescriptor_open hfd htable]
  apply (congrFun (if_neg hknown) s).trans
  apply (bind_done hdev).trans
  rw [onReading, hread]
  rfl

end

/-! ### A process at its start -/

/-- No file is open, and `slash` and `dot` are at the root. -/
def freshFiles : Files where
  heap := ⟨fun _ => true, 2, [1, 0], by decide⟩
  machine := quietMachine
  table := fun _ => none
  slash := (0, slash)
  dot := (1, slash)
  errno := .ok

/-- The first file that a process opens. -/
theorem sysopen_fresh (path : Name) {w : Node pf}
    (hopen : blocked (rootNode pf) (pathNames path) = false)
    (hnode : resolve (rootNode pf) (pathNames path) = some w) (caps : ℕ) :
  Returns freshFiles (sysopen pf path caps) fun r s => r = 0 ∧
    ∃ a p, s.table 0 = some (a, p) ∧ At p w ∧ s.heap.live = [a, 3, 2, 1, 0]
  := by
  have hstart : freshFiles.start path = slash := by
    rw [Files.start]
    split <;> rfl
  have hroot : (rootNode pf).isMount = false := attached_not_isMount .root []
  have hopens : Opens (rootNode pf) path freshFiles.heap :=
    .inr ⟨.inl rfl, .inr ⟨hopen, fun _ _ => rfl⟩⟩
  have hfree : firstFree freshFiles.table = some 0 :=
    firstFree_eq_some_iff.mpr ⟨by decide, rfl, by simp⟩
  refine (sysopen_returns (hstart ▸ at_slash pf) hroot hopens caps).mono ?_
  intro r s hopened
  cases hopened with
  | refused H e hlive hwhy =>
      rw [hnode, hfree] at hwhy
      rcases hwhy with h | h | h | h <;> cases h
  | opened H fd a p v hfd hv hp hpath hportal hlive ha =>
      rw [hfree] at hfd
      cases hfd
      rw [hnode] at hv
      cases hv
      exact ⟨rfl, a, openDev p caps, Function.update_self 0 _ freshFiles.table,
        ⟨hp.device, hp.crumb⟩, hlive⟩

end Dev
