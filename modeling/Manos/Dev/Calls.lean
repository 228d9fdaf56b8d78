import Manos.Dev.Kept
import Manos.Lib.Slots

/-!
# System calls on files

The calls of a process on its files, and what each one of them may do to the table of descriptors
and to the blocks that are allocated.  The portals of a process are at nodes of the device tree, in
blocks that are allocated, and no two of them are in the same block.
-/

namespace Dev

open Exec

variable {pf : Platform} {s s' : Files} {own : Set ℕ}

/-! ### Calls -/

/--
The calls of a process on its files, with what they find in the machine.  The calls that `readDate`
and `writeDate` make themselves are calls of their own, before the one that they belong to.
-/
inductive Call where
  | sysopen (path : Name) (caps : ℕ)
  | sysclose (fd : ℤ)
  | sysread (hw : Hardware) (fileInfo : ℕ → Byte) (fd : ℤ) (n : ℕ)
  | syswrite (ctx : Context) (fd : ℤ) (buf : List Byte)
  | sysgetInfoFd (fd : ℤ)
  | dirread (hw : Hardware) (fileInfo : ℕ → Byte) (fd : ℤ)

/-- What a call gives back. -/
structure Answer where
  /-- the value that is returned, if there is one -/
  value : Option ℤ
  /-- the bytes that are stored in the buffer of the caller -/
  buf : ℕ → Option Byte
  /-- the information that is stored -/
  info : List NodeInfo

/-- The answer that is a value only. -/
def Answer.ofValue (value : Option ℤ) : Answer := ⟨value, fun _ => none, []⟩

/-- The function that is called. -/
def Call.run (pf : Platform) : Call → Exec Files Answer
  | .sysopen path caps => do
      let r ← Dev.sysopen pf path caps
      return .ofValue r
  | .sysclose fd => do
      Dev.sysclose pf fd
      return .ofValue none
  | .sysread hw fileInfo fd n => do
      let (r, buf) ← Dev.sysread (fun d => d.read pf hw fileInfo) fd n
      return { value := r, buf := buf, info := [] }
  | .syswrite ctx fd buf => do
      let r ← Dev.syswrite (fun d => d.write pf ctx) fd buf
      return .ofValue r
  | .sysgetInfoFd fd => do
      let (r, ni) ← Dev.sysgetInfoFd pf fd
      return { value := r, buf := fun _ => none, info := ni.toList }
  | .dirread hw fileInfo fd => do
      let (r, nis) ← Dev.dirread (fun d => d.read pf hw fileInfo) fd
      return { value := r, buf := fun _ => none, info := (nis.map Prod.snd).getD [] }

/-- The descriptor on which a call is made. -/
def Call.descriptor : Call → Option ℤ
  | .sysopen _ _ => none
  | .sysclose fd => some fd
  | .sysread _ _ fd _ => some fd
  | .syswrite _ fd _ => some fd
  | .sysgetInfoFd fd => some fd
  | .dirread _ _ fd => some fd

/-- What a call on a descriptor answers that is not open. -/
def Call.refused : Call → Answer
  | .sysclose _ => .ofValue none
  | _ => .ofValue (some (-1))

/-! ### Descriptors -/

/-- A call on a descriptor outside the table. -/
theorem withDescriptor_outside {α : Type} {fd : ℤ} (h : ¬ (0 ≤ fd ∧ fd < maxFd)) (refused : α)
    (f : ℕ → Portal → Exec Files α) (s : Files) :
  withDescriptor fd refused f s = .stop (.wild "descriptorTable") s
  := by
  have hlookup : descriptor fd s = .stop (.wild "descriptorTable") s := by
    rw [descriptor, bind_done (get_apply s), if_neg h]
    rfl
  rw [withDescriptor, bind_stop hlookup]

/-- A call on a descriptor that is not open. -/
theorem withDescriptor_closed {α : Type} {fd : ℕ} (hfd : fd < maxFd) (htable : s.table fd = none)
    (refused : α) (f : ℕ → Portal → Exec Files α) :
  withDescriptor fd refused f s = .done refused { s with errno := .ebadf }
  := by
  have hrange : (0 : ℤ) ≤ fd ∧ (fd : ℤ) < maxFd := ⟨Int.natCast_nonneg fd, Int.ofNat_lt.mpr hfd⟩
  have hlookup : descriptor fd s = .done none s := by
    rw [descriptor, bind_done (get_apply s), if_pos hrange, Int.toNat_natCast, htable]
    rfl
  rw [withDescriptor, bind_done hlookup, ite_self]
  rfl

/-- What a call on a descriptor may do that returns. -/
theorem withDescriptor_cases {α : Type} {fd : ℤ} {refused r : α} {f : ℕ → Portal → Exec Files α}
    (h : withDescriptor fd refused f s = .done r s') :
  ∃ n : ℕ, fd = n ∧ n < maxFd ∧
    (s.table n = none ∧ r = refused ∧ s' = { s with errno := .ebadf } ∨
      ∃ a p, s.table n = some (a, p) ∧ f a p s = .done r s')
  := by
  by_cases hrange : 0 ≤ fd ∧ fd < maxFd
  · obtain ⟨n, rfl⟩ := Int.eq_ofNat_of_zero_le hrange.1
    have hn : n < maxFd := Int.ofNat_lt.mp hrange.2
    refine ⟨n, rfl, hn, ?_⟩
    cases htable : s.table n with
    | none =>
        rw [withDescriptor_closed hn htable] at h
        cases h
        exact .inl ⟨rfl, rfl, rfl⟩
    | some ap =>
        obtain ⟨a, p⟩ := ap
        rw [withDescriptor_open hn htable] at h
        exact .inr ⟨a, p, rfl, h⟩
  · rw [withDescriptor_outside hrange] at h
    cases h

/-! ### Portals of a process -/

/-- The variables of a process that hold portals. -/
inductive Holder where
  | slash
  | dot
  | descriptor (fd : ℕ)
deriving DecidableEq

/-- The block of a portal. -/
def Files.held (s : Files) : Holder → Option ℕ
  | .slash => some s.slash.1
  | .dot => some s.dot.1
  | .descriptor fd => (s.table fd).map Prod.fst

theorem held_descriptor {fd a : ℕ} {p : Portal} (hfd : s.table fd = some (a, p)) :
  s.held (.descriptor fd) = some a
  := congrArg (Option.map Prod.fst) hfd

theorem held_descriptor_of_none {fd : ℕ} (hfd : s.table fd = none) :
  s.held (.descriptor fd) = none
  := congrArg (Option.map Prod.fst) hfd

/--
The portals of a process are at nodes, in different blocks, which are allocated and belong to the
set `own`.
-/
structure Files.Inv (pf : Platform) (own : Set ℕ) (s : Files) : Prop where
  slash : At s.slash.2 (rootNode pf)
  dot : At s.dot.2 (rootNode pf)
  nodes : ∀ fd a p, s.table fd = some (a, p) → ∃ w : Node pf, At p w
  bound : ∀ fd, s.table fd ≠ none → fd < maxFd
  blocks : Slots.Distinct s.held {a | a ∈ own ∧ a ∈ s.heap.live}

theorem Files.Inv.mono {own' : Set ℕ} (h : s.Inv pf own)
    (hown : ∀ a ∈ own, a ∈ s.heap.live → a ∈ own') :
  s.Inv pf own'
  := ⟨h.slash, h.dot, h.nodes, h.bound,
    h.blocks.mono fun _ a _ ha => ⟨hown a ha.1 ha.2, ha.2⟩⟩

/-- The blocks that are allocated in `s'` and were not in `s`. -/
def newBlocks (s s' : Files) : Set ℕ := {a | a ∈ s'.heap.live ∧ a ∉ s.heap.live}

/-- The block of a portal, its device and its crumb. -/
def place (x : ℕ × Portal) : ℕ × ℤ × Crumb := (x.1, x.2.device, x.2.crumb)

/-- What a call that returns may do to the table of descriptors and to the blocks. -/
inductive Change (pf : Platform) (s s' : Files) : Prop where
  | quiet (htable : ∀ fd, (s'.table fd).map place = (s.table fd).map place)
      (hlive : ∀ a ∈ s.heap.live, a ∈ s'.heap.live)
  | opened (fd a : ℕ) (p : Portal) (w : Node pf) (hfd : firstFree s.table = some fd) (hp : At p w)
      (htable : s'.table = Function.update s.table fd (some (a, p)))
      (ha : a ∈ newBlocks s s') (hlive : ∀ a ∈ s.heap.live, a ∈ s'.heap.live)
  | closed (fd a : ℕ) (p : Portal) (hfd : s.table fd = some (a, p))
      (htable : s'.table = Function.update s.table fd none)
      (hlive : s'.heap.live = s.heap.live.erase a)

/-- What a call that returns may do. -/
structure Effect (pf : Platform) (s s' : Files) : Prop where
  slash : s'.slash = s.slash
  dot : s'.dot = s.dot
  change : Change pf s s'

/-! ### Effects keep the invariant -/

/-- The blocks that are held after a change of one descriptor. -/
theorem held_of_update (hslash : s'.slash = s.slash) (hdot : s'.dot = s.dot) {fd : ℕ}
    {x : Option (ℕ × Portal)} (htable : s'.table = Function.update s.table fd x) :
  s'.held = Function.update s.held (.descriptor fd) (x.map Prod.fst)
  := by
  funext i
  cases i with
  | slash => simp [Files.held, hslash]
  | dot => simp [Files.held, hdot]
  | descriptor fd' =>
      by_cases h : fd' = fd
      · subst h
        simp [Files.held, htable]
      · simp [Files.held, htable, h]

/-- The blocks that are held after changes of offsets. -/
theorem held_of_place (hslash : s'.slash = s.slash) (hdot : s'.dot = s.dot)
    (htable : ∀ fd, (s'.table fd).map place = (s.table fd).map place) :
  s'.held = s.held
  := by
  funext i
  cases i with
  | slash => simp [Files.held, hslash]
  | dot => simp [Files.held, hdot]
  | descriptor fd =>
      have hfst := congrArg (Option.map Prod.fst) (htable fd)
      rw [Option.map_map, Option.map_map] at hfst
      exact hfst

/-- The portal of a descriptor after changes of offsets is where it was. -/
theorem exists_place (htable : ∀ fd, (s'.table fd).map place = (s.table fd).map place) {fd a : ℕ}
    {p : Portal} (hfd : s'.table fd = some (a, p)) :
  ∃ q, s.table fd = some (a, q) ∧ q.device = p.device ∧ q.crumb = p.crumb
  := by
  have h := htable fd
  rw [hfd] at h
  cases hs : s.table fd with
  | none =>
      rw [hs] at h
      cases h
  | some x =>
      obtain ⟨b, q⟩ := x
      rw [hs, Option.map_some, Option.map_some, Option.some.injEq, place, place, Prod.mk.injEq,
        Prod.mk.injEq] at h
      obtain ⟨hblock, hdevice, hcrumb⟩ := h
      exact ⟨q, congrArg (fun c => some (c, q)) hblock.symm, hdevice.symm, hcrumb.symm⟩

/-- A block that is allocated and in which there is no portal stays allocated. -/
theorem Effect.live (he : Effect pf s s') {a : ℕ} (ha : a ∈ s.heap.live)
    (hheld : ∀ i, s.held i ≠ some a) :
  a ∈ s'.heap.live
  := by
  cases he.change with
  | quiet _ hlive => exact hlive a ha
  | opened _ _ _ _ _ _ _ _ hlive => exact hlive a ha
  | closed fd b p hfd _ hlive =>
      have hne : a ≠ b := by
        rintro rfl
        exact hheld (.descriptor fd) (held_descriptor hfd)
      rw [hlive]
      exact (List.mem_erase_of_ne hne).mpr ha

/-- After a call a portal is in a block in which there was one, or in a new one. -/
theorem Effect.held (he : Effect pf s s') {i : Holder} {a : ℕ} (hi : s'.held i = some a) :
  s.held i = some a ∨ a ∉ s.heap.live
  := by
  cases he.change with
  | quiet htable _ =>
      rw [held_of_place he.slash he.dot htable] at hi
      exact .inl hi
  | opened fd b p w _ _ htable hb _ =>
      rw [held_of_update he.slash he.dot htable] at hi
      by_cases hfd : i = .descriptor fd
      · rw [hfd, Function.update_self] at hi
        cases hi
        exact .inr hb.2
      · rw [Function.update_of_ne hfd] at hi
        exact .inl hi
  | closed fd b p _ htable _ =>
      rw [held_of_update he.slash he.dot htable] at hi
      by_cases hfd : i = .descriptor fd
      · rw [hfd, Function.update_self] at hi
        cases hi
      · rw [Function.update_of_ne hfd] at hi
        exact .inl hi

namespace Files.Inv

variable {fd a : ℕ} {p : Portal} (h : s.Inv pf own) (hslash : s'.slash = s.slash)
  (hdot : s'.dot = s.dot)
include h hslash hdot

theorem quiet (htable : ∀ fd, (s'.table fd).map place = (s.table fd).map place)
    (hlive : ∀ a ∈ s.heap.live, a ∈ s'.heap.live) :
  s'.Inv pf (own ∪ newBlocks s s')
  := by
  refine ⟨hslash ▸ h.slash, hdot ▸ h.dot, ?_, ?_, ?_⟩
  · intro fd a p hfd
    obtain ⟨q, hq, hdevice, hcrumb⟩ := exists_place htable hfd
    obtain ⟨w, hw⟩ := h.nodes fd a q hq
    exact ⟨w, hdevice ▸ hw.device, hcrumb ▸ hw.crumb⟩
  · intro fd hfd
    obtain ⟨⟨a, p⟩, hp⟩ := Option.ne_none_iff_exists'.mp hfd
    obtain ⟨q, hq, -⟩ := exists_place htable hp
    apply h.bound fd
    rw [hq]
    exact Option.some_ne_none _
  · rw [held_of_place hslash hdot htable]
    exact h.blocks.mono fun i a _ ha => ⟨.inl ha.1, hlive a ha.2⟩

/-- A change of one descriptor, to a portal at a node or to none. -/
theorem update {x : Option (ℕ × Portal)} (htable : s'.table = Function.update s.table fd x)
    (hnode : ∀ a p, x = some (a, p) → ∃ w : Node pf, At p w) (hbound : x ≠ none → fd < maxFd)
    (hblocks : Slots.Distinct (Function.update s.held (.descriptor fd) (x.map Prod.fst))
      {a | a ∈ own ∪ newBlocks s s' ∧ a ∈ s'.heap.live}) :
  s'.Inv pf (own ∪ newBlocks s s')
  := by
  refine ⟨hslash ▸ h.slash, hdot ▸ h.dot, ?_, ?_, ?_⟩
  · intro fd' b q hq
    rw [htable] at hq
    by_cases hne : fd' = fd
    · rw [hne, Function.update_self] at hq
      exact hnode b q hq
    · rw [Function.update_of_ne hne] at hq
      exact h.nodes fd' b q hq
  · intro fd' hfd'
    rw [htable] at hfd'
    by_cases hne : fd' = fd
    · rw [hne, Function.update_self] at hfd'
      exact hne ▸ hbound hfd'
    · rw [Function.update_of_ne hne] at hfd'
      exact h.bound fd' hfd'
  · rw [held_of_update hslash hdot htable]
    exact hblocks

theorem opened {w : Node pf} (hfd : firstFree s.table = some fd) (hp : At p w)
    (htable : s'.table = Function.update s.table fd (some (a, p))) (ha : a ∈ newBlocks s s')
    (hlive : ∀ a ∈ s.heap.live, a ∈ s'.heap.live) :
  s'.Inv pf (own ∪ newBlocks s s')
  := by
  apply h.update hslash hdot htable
  · intro b q hq
    cases hq
    exact ⟨w, hp⟩
  · intro _
    exact (firstFree_eq_some_iff.mp hfd).1
  · have hblocks := h.blocks.mono (T := {a | a ∈ own ∪ newBlocks s s' ∧ a ∈ s'.heap.live})
      fun i a _ ha => ⟨.inl ha.1, hlive a ha.2⟩
    apply hblocks.put
    · intro i hi
      exact ha.2 (h.blocks.mem i a hi).2
    · exact ⟨.inr ha, ha.1⟩

theorem closed (hfd : s.table fd = some (a, p))
    (htable : s'.table = Function.update s.table fd none)
    (hlive : s'.heap.live = s.heap.live.erase a) :
  s'.Inv pf (own ∪ newBlocks s s')
  := by
  apply h.update hslash hdot htable
  · intro b q hq
    cases hq
  · intro hnone
    contradiction
  · refine (h.blocks.clear (held_descriptor hfd)).mono ?_
    rintro i b - ⟨⟨hown, hb⟩, hne⟩
    refine ⟨.inl hown, ?_⟩
    rw [hlive]
    exact (List.mem_erase_of_ne hne).mpr hb

end Files.Inv

/-- What a call does keeps the invariant, where it adds to `own` what it leaves allocated. -/
theorem Files.Inv.effect (h : s.Inv pf own) (he : Effect pf s s') :
  s'.Inv pf (own ∪ newBlocks s s')
  := by
  cases he.change with
  | quiet htable hlive => exact h.quiet he.slash he.dot htable hlive
  | opened fd a p w hfd hp htable ha hlive => exact h.opened he.slash he.dot hfd hp htable ha hlive
  | closed fd a p hfd htable hlive => exact h.closed he.slash he.dot hfd htable hlive

/-! ### The effects of the calls -/

theorem Effect.of_errno (e : Errno) :
  Effect pf s { s with errno := e }
  := ⟨rfl, rfl, .quiet (fun _ => rfl) fun _ ha => ha⟩

theorem Files.Inv.start (h : s.Inv pf own) (path : Name) :
  At (s.start path) (rootNode pf)
  := by
  rw [Files.start]
  split
  · exact h.slash
  · exact h.dot

theorem rootNode_not_isMount (pf : Platform) :
  (rootNode pf).isMount = false
  := attached_not_isMount .root []

theorem sysopen_effect (h : s.Inv pf own) {path : Name} {caps : ℕ} {r : ℤ}
    (hrun : sysopen pf path caps s = .done r s') :
  Effect pf s s'
  := by
  have hopens := opens_of_done (h.start path) (rootNode_not_isMount pf) hrun
  have hopened :=
    (sysopen_returns (h.start path) (rootNode_not_isMount pf) hopens caps).done hrun
  cases hopened with
  | refused H e hlive hwhy =>
      refine ⟨rfl, rfl, .quiet (fun _ => rfl) fun a ha => ?_⟩
      change a ∈ H.live
      rw [hlive]
      exact List.mem_append_right _ ha
  | opened H fd a p w hfd hw hp hpath hportal hlive ha =>
      have hmem : ∀ b ∈ s.heap.live, b ∈ elemsBlock s.heap ++ s.heap.next :: s.heap.live :=
        fun b hb => List.mem_append_right _ (List.mem_cons_of_mem _ hb)
      refine ⟨rfl, rfl, .opened fd a (openDev p caps) w hfd ⟨hp.device, hp.crumb⟩ rfl ⟨?_, ?_⟩ ?_⟩
      · change a ∈ H.live
        rw [hlive]
        exact List.mem_cons_self
      · exact fun hold => ha (hmem a hold)
      · intro b hb
        change b ∈ H.live
        rw [hlive]
        exact List.mem_cons_of_mem a (hmem b hb)

theorem sysclose_effect (h : s.Inv pf own) {fd : ℤ} {u : Unit}
    (hrun : sysclose pf fd s = .done u s') :
  Effect pf s s'
  := by
  obtain ⟨n, rfl, hn, ⟨-, -, rfl⟩ | ⟨a, p, hfd, -⟩⟩ := withDescriptor_cases hrun
  · exact .of_errno _
  · obtain ⟨w, hw⟩ := h.nodes n a p hfd
    have hclose := closes_of_done hn hfd hw hrun
    have ha := (h.blocks.mem _ a (held_descriptor hfd)).2
    obtain ⟨m, e, rfl⟩ := (sysclose_returns hn hfd hw hclose ha).done hrun
    exact ⟨rfl, rfl, .closed n a p hfd rfl rfl⟩

/-- What a read function does to the state of a process. -/
theorem onReading_cases {fd : ℤ} {a : ℕ} {p : Portal} {x : Exec Reading ℤ}
    {r : ℤ × (ℕ → Option Byte)} (hx : Preserves Reading.place x)
    (hrun : onReading fd a p x s = .done r s') :
  ∃ q, place (a, q) = place (a, p) ∧
    s' = { s with table := Function.update s.table fd.toNat (some (a, q)) }
  := by
  rw [onReading] at hrun
  cases h : x ⟨p, fun _ => none⟩ with
  | stop f t =>
      rw [h] at hrun
      cases hrun
  | done z t =>
      rw [h] at hrun
      cases hrun
      exact ⟨t.portal, congrArg (Prod.mk a) (hx.done h), rfl⟩

/-- A change of the offset of a portal. -/
theorem map_place_update {fd a : ℕ} {p q : Portal} (hfd : s.table fd = some (a, p))
    (hplace : place (a, q) = place (a, p)) (fd' : ℕ) :
  (Function.update s.table fd (some (a, q)) fd').map place = (s.table fd').map place
  := by
  by_cases h : fd' = fd
  · subst h
    rw [Function.update_self, hfd, Option.map_some, Option.map_some, hplace]
  · rw [Function.update_of_ne h]

theorem onHeap_cases {α : Type} {x : Exec Heap α} {r : α} (hrun : onHeap x s = .done r s') :
  ∃ H, x s.heap = .done r H ∧ s' = { s with heap := H }
  := by
  rw [onHeap, onPart] at hrun
  cases h : x s.heap with
  | done r' H =>
      rw [h] at hrun
      cases hrun
      exact ⟨H, rfl, rfl⟩
  | stop f H =>
      rw [h] at hrun
      cases hrun

theorem onMachine_cases {α : Type} {x : Exec Machine α} {r : α}
    (hrun : onMachine x s = .done r s') :
  ∃ m, s' = { s with machine := m }
  := by
  rw [onMachine, onPart] at hrun
  split at hrun
  · cases hrun
    exact ⟨_, rfl⟩
  · cases hrun

theorem syskmalloc_live {H H' : Heap} {r : Option ℕ} (hrun : syskmalloc H = .done r H') :
  ∀ a ∈ H.live, a ∈ H'.live
  := by
  intro a ha
  cases hH : H.grants H.next with
  | false =>
      rw [syskmalloc_refused hH] at hrun
      cases hrun
      exact ha
  | true =>
      rw [syskmalloc_granted hH] at hrun
      cases hrun
      exact List.mem_cons_of_mem _ ha

theorem namesFrom_keeps (p : Portal) (buf : ℕ → Option Byte) (k c : ℕ) :
  Preserves (fun s => s) (namesFrom p buf k c)
  := by
  induction k generalizing c with
  | zero => apply Preserves.pure
  | succ k ih =>
      rw [namesFrom]
      split
      · apply Preserves.fault
      · exact .bind (ih _) fun _ => Preserves.pure _ _

section

variable (h : s.Inv pf own)
include h

/-- The device of an open descriptor is in the table of devices. -/
theorem Files.Inv.device {fd a : ℕ} {p : Portal} (hfd : s.table fd = some (a, p)) :
  ¬ p.device ≥ maxDev ∧ ∃ d : Device, onHeap (deviceAt p.device) s = .done d s
  := by
  obtain ⟨w, hat⟩ := h.nodes fd a p hfd
  refine ⟨hat.device ▸ w.device.index_lt, w.device, ?_⟩
  rw [hat.device]
  exact onHeap_done (deviceAt_index w.device s.heap)

variable {fd : ℤ} {hw : Hardware} {fileInfo : ℕ → Byte}

theorem sysread_effect {n : ℕ} {r : ℤ × (ℕ → Option Byte)}
    (hrun : sysread (fun d => d.read pf hw fileInfo) fd n s = .done r s') :
  Effect pf s s'
  := by
  obtain ⟨fd, rfl, -, ⟨-, -, rfl⟩ | ⟨a, p, hfd, hrest⟩⟩ := withDescriptor_cases hrun
  · exact .of_errno _
  · obtain ⟨hknown, d, hdev⟩ := h.device hfd
    rw [if_neg hknown, bind_done hdev] at hrest
    obtain ⟨q, hplace, rfl⟩ := onReading_cases (d.read_keeps hw fileInfo n p.offset) hrest
    exact ⟨rfl, rfl, .quiet (map_place_update hfd hplace) fun _ hb => hb⟩

theorem syswrite_effect {ctx : Context} {buf : List Byte} {r : ℤ}
    (hrun : syswrite (fun d => d.write pf ctx) fd buf s = .done r s') :
  Effect pf s s'
  := by
  obtain ⟨fd, rfl, -, ⟨-, -, rfl⟩ | ⟨a, p, hfd, hrest⟩⟩ := withDescriptor_cases hrun
  · exact .of_errno _
  · obtain ⟨-, d, hdev⟩ := h.device hfd
    rw [bind_done hdev] at hrest
    obtain ⟨m, rfl⟩ := onMachine_cases hrest
    exact ⟨rfl, rfl, .quiet (fun _ => rfl) fun _ hb => hb⟩

theorem sysgetInfoFd_effect {r : ℤ × Option NodeInfo}
    (hrun : sysgetInfoFd pf fd s = .done r s') :
  Effect pf s s'
  := by
  obtain ⟨fd, rfl, -, ⟨-, -, rfl⟩ | ⟨a, p, hfd, hrest⟩⟩ := withDescriptor_cases hrun
  · exact .of_errno _
  · obtain ⟨hknown, d, hdev⟩ := h.device hfd
    rw [if_neg hknown] at hrest
    split at hrest
    · cases hrest
      exact .of_errno _
    · rw [bind_done hdev] at hrest
      obtain ⟨ni, t, hinfo, hrest⟩ := bind_eq_done_iff.mp hrest
      obtain ⟨H, hget, rfl⟩ := onHeap_cases hinfo
      have hlive := (d.getInfo_keeps (g := Heap.live) p).done hget
      have hs' : s' = { s with heap := H } := by
        cases ni <;> cases hrest <;> rfl
      rw [hs']
      exact ⟨rfl, rfl, .quiet (fun _ => rfl) fun b hb => hlive.symm ▸ hb⟩

theorem dirread_effect {r : ℤ × Option (ℕ × List NodeInfo)}
    (hrun : dirread (fun d => d.read pf hw fileInfo) fd s = .done r s') :
  Effect pf s s'
  := by
  obtain ⟨fd, rfl, -, ⟨-, -, rfl⟩ | ⟨a, p, hfd, hrest⟩⟩ := withDescriptor_cases hrun
  · exact .of_errno _
  · obtain ⟨hknown, d, hdev⟩ := h.device hfd
    rw [if_neg hknown] at hrest
    split at hrest
    · cases hrest
      exact .of_errno _
    · rw [bind_done hdev] at hrest
      obtain ⟨⟨dirs, buf⟩, t, hread, hrest⟩ := bind_eq_done_iff.mp hrest
      obtain ⟨q, hplace, rfl⟩ :=
        onReading_cases (d.read_keeps hw fileInfo dirreadReadbufMax p.offset) hread
      have htable := map_place_update hfd hplace
      simp only at hrest
      by_cases hdirs : dirs < 1
      · rw [if_pos hdirs] at hrest
        cases hrest
        exact ⟨rfl, rfl, .quiet htable fun _ hb => hb⟩
      · rw [if_neg hdirs] at hrest
        obtain ⟨b, t, halloc, hrest⟩ := bind_eq_done_iff.mp hrest
        obtain ⟨H, hH, rfl⟩ := onHeap_cases halloc
        cases b with
        | none => cases hrest
        | some b =>
            obtain ⟨nis, t, hnames, hrest⟩ := bind_eq_done_iff.mp hrest
            obtain rfl := (namesFrom_keeps p buf dirs.toNat 0).done hnames
            cases hrest
            exact ⟨rfl, rfl, .quiet htable (syskmalloc_live hH)⟩

end

/-- What a call that returns does. -/
theorem Call.effect (h : s.Inv pf own) (c : Call) {r : Answer} (hrun : c.run pf s = .done r s') :
  Effect pf s s'
  := by
  cases c with
  | sysopen path caps =>
      obtain ⟨x, t, hcall, hrest⟩ := bind_eq_done_iff.mp hrun
      cases hrest
      exact sysopen_effect h hcall
  | sysclose fd =>
      obtain ⟨x, t, hcall, hrest⟩ := bind_eq_done_iff.mp hrun
      cases hrest
      exact sysclose_effect h hcall
  | sysread hw fileInfo fd n =>
      obtain ⟨x, t, hcall, hrest⟩ := bind_eq_done_iff.mp hrun
      cases hrest
      exact sysread_effect h hcall
  | syswrite ctx fd buf =>
      obtain ⟨x, t, hcall, hrest⟩ := bind_eq_done_iff.mp hrun
      cases hrest
      exact syswrite_effect h hcall
  | sysgetInfoFd fd =>
      obtain ⟨x, t, hcall, hrest⟩ := bind_eq_done_iff.mp hrun
      cases hrest
      exact sysgetInfoFd_effect h hcall
  | dirread hw fileInfo fd =>
      obtain ⟨x, t, hcall, hrest⟩ := bind_eq_done_iff.mp hrun
      cases hrest
      exact dirread_effect h hcall

end Dev
