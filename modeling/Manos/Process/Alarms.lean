import Manos.Process.Effects

/-!
# The alarms of the timer

The handler of the programmable delay block, with the list of alarms as it is in memory: a
circle of nodes, one of them in the timer and one in every alarm.  Alarms are taken off the
list and freed while the list is walked.
-/

set_option linter.style.nameCheck false

namespace Process

open Exec

/-! ### The handler -/

/-- The nodes of the list of alarms: `timer->alarms`, and `next` of an alarm. -/
inductive ANode where
  | null
  | alarms
  | next (a : Nat)
deriving DecidableEq, Repr

/-- The functions of `timer->hw` that the handler calls. -/
inductive HwCall where
  | clear
  | stop
  | start
deriving DecidableEq, Repr

/-- The state of the handler.  The alarms are named by numbers. -/
structure Pdb where
  kernel : Kernel
  pdbInterruptCount : BitVec 64
  /-- `hotpluggedTimers->next` is a timer -/
  timer : Bool
  links : Links ANode
  alarm : Nat → Alarm
  /-- the alarms that were passed to `__kfree`, in this order -/
  freed : List Nat
  /-- the functions of `timer->hw` that were called, in this order -/
  calls : List HwCall

namespace Pdb

/-- A function of `timer->hw` is called. -/
def hw (c : HwCall) : Exec Pdb Unit := modify fun s => { s with calls := s.calls ++ [c] }

/-- The fields of the node `x` are read or written. -/
def access : ANode → Exec Pdb Unit
  | .null => fault (.null "next")
  | .alarms => pure ()
  | .next a => do
    let s ← get
    if a ∈ s.freed then fault (.wild "next") else pure ()

/-- The alarm with the node `x`, whose fields are read. -/
def entry : ANode → Exec Pdb Nat
  | .null => fault (.null "iter")
  | .alarms => fault (.wild "iter")
  | .next a => do
    access (.next a)
    pure a

/-- `listIsEmpty(&timer->alarms)` -/
def listIsEmpty (s : Pdb) : Prop := s.links.next .alarms = .alarms

instance (s : Pdb) : Decidable s.listIsEmpty := inferInstanceAs (Decidable (_ = _))

/-- `LIST_NEXT_ENTRY_OR_NULL(pos, next, &timer->alarms)` -/
def nextEntryOrNull (pos : ANode) : Exec Pdb ANode :=
  if pos = .alarms then pure .null else do
    access pos
    let s ← get
    pure (s.links.next pos)

/-- `LIST_FIRST_ENTRY_OR_NULL(&timer->alarms, AlarmChain, next)` -/
def firstEntryOrNull (s : Pdb) : ANode := if s.listIsEmpty then .null else s.links.next .alarms

/-- The value of `save` before the loop. -/
def firstSave (iter : ANode) : Exec Pdb ANode :=
  if iter = .null then pure .null else nextEntryOrNull iter

/-- `listUnlink(node)` -/
def listUnlink (node : ANode) : Exec Pdb Unit := do
  access node
  let s ← get
  access (s.links.next node)
  access (s.links.prev node)
  modify fun s => { s with links := s.links.unlink .null node }

/-- `__kfree(iter)` -/
def __kfree (a : Nat) : Exec Pdb Unit := do
  let s ← get
  if a ∈ s.freed then fault (.wild "iter") else modify fun s => { s with freed := s.freed ++ [a] }

/-- `syspostsignal(pid, signal)` -/
def postsignal (pid : Int) (signal : BitVec 32) : Exec Pdb Unit :=
  onPart kernel (fun k s => { s with kernel := k }) (syspostsignal pid signal)

/-- The body of the loop. -/
def ring (now : BitVec 64) (iter : ANode) : Exec Pdb Unit := do
  let a ← entry iter
  let s ← get
  when ((s.alarm a).wakeTime ≤ now) do
    postsignal (s.alarm a).pid sigAlarm
    listUnlink (.next a)
    __kfree a

/-- The loop, with its variables `iter` and `save`. -/
def ringLoop (now : BitVec 64) : Nat → ANode → ANode → Exec Pdb Unit
  | 0, _, _ => fault .endless
  | n + 1, iter, save =>
    if iter = .null ∨ iter = .alarms then pure () else do
      ring now iter
      let next ← nextEntryOrNull save
      ringLoop now n save next

/-- `LIST_FOR_EACH_ENTRY_SAFE(iter, save, &timer->alarms, next)`, with at most `n` turns. -/
def ringAlarms (n : Nat) : Exec Pdb Unit := do
  let s ← get
  let save ← firstSave s.firstEntryOrNull
  ringLoop s.kernel.systime n s.firstEntryOrNull save

/-- The part of `pdbHandler()` for a timer with alarms. -/
def ringTimer (n : Nat) : Exec Pdb Unit := do
  hw .stop
  ringAlarms n
  hw .start

/-- `pdbHandler()`, whose loop makes at most `n` turns -/
def pdbHandler (n : Nat) : Exec Pdb Unit := do
  modify fun s => { s with pdbInterruptCount := s.pdbInterruptCount + 1 }
  let s ← get
  when (s.timer = true) do
    hw .clear
    let s ← get
    when (¬ s.listIsEmpty) (ringTimer n)

/-! ### The list of alarms -/

/-- The alarms `l` are on the list in this order, and none of them was freed. -/
structure Holds (s : Pdb) (l : List Nat) : Prop where
  ring : s.links.Ring .alarms (l.map .next)
  live : ∀ a ∈ l, a ∉ s.freed

/-- The alarm has run out. -/
def Due (s : Pdb) (a : Nat) : Prop := (s.alarm a).wakeTime ≤ s.kernel.systime

instance (s : Pdb) (a : Nat) : Decidable (s.Due a) := inferInstanceAs (Decidable (_ ≤ _))

/-- The alarm names the process `p`, which is in the table. -/
def Names (s : Pdb) (a : Nat) (p : ProcId) : Prop :=
  0 ≤ (s.alarm a).pid ∧ (s.alarm a).pid ≤ maxProc
    ∧ s.kernel.procTable (s.alarm a).pid = .proc p

variable {s s' : Pdb} {l l₁ l₂ : List Nat} {a : Nat} {p : ProcId} {x : ANode}

theorem Holds.nodup (h : s.Holds l) :
  l.Nodup
  := List.Nodup.of_map _ (List.nodup_cons.mp h.ring.nodup).2

theorem Holds.eq_nil (h : s.Holds l) (hempty : s.listIsEmpty) :
  l = []
  := by
  have hfirst := h.ring.neighbours_head.1
  rw [show s.links.next .alarms = .alarms from hempty] at hfirst
  cases l with
  | nil => rfl
  | cons a l => cases hfirst

/-- The nodes of the list may be read and written. -/
theorem Holds.access (h : s.Holds l) (hx : x ∈ .alarms :: l.map .next) :
  Pdb.access x s = .done () s
  := by
  rcases List.mem_cons.mp hx with rfl | hx
  · rfl
  · obtain ⟨a, ha, rfl⟩ := List.mem_map.mp hx
    rw [Pdb.access, bind_done (get_apply s), if_neg (h.live a ha)]
    rfl

theorem Holds.entry (h : s.Holds l) (ha : a ∈ l) :
  Pdb.entry (.next a) s = .done a s
  := by
  have hx : ANode.next a ∈ .alarms :: l.map .next :=
    List.mem_cons_of_mem _ (List.mem_map_of_mem ha)
  rw [Pdb.entry, bind_done (h.access hx)]
  rfl

/-- The node after the one of an alarm. -/
theorem Holds.nextEntryOrNull (h : s.Holds (l₁ ++ a :: l₂)) :
  Pdb.nextEntryOrNull (.next a) s = .done ((l₂.map .next).headD .alarms) s
  := by
  have hx : ANode.next a ∈ .alarms :: (l₁ ++ a :: l₂).map .next := by simp
  have hring := h.ring
  rw [List.map_append, List.map_cons] at hring
  rw [Pdb.nextEntryOrNull, if_neg nofun, bind_done (h.access hx), bind_done (get_apply s),
    hring.neighbours.2]
  rfl

/-- The neighbours of an alarm on the list are on it. -/
theorem neighbours_mem :
  (l₂.map .next).headD .alarms ∈ ANode.alarms :: (l₁ ++ a :: l₂).map .next
    ∧ (l₁.map .next).getLastD .alarms ∈ ANode.alarms :: (l₁ ++ a :: l₂).map .next
  := by
  have hhead := @Links.headD_mem _ (.alarms : ANode) (l₂.map .next)
  have hlast := @List.getLastD_mem_cons _ (l₁.map .next) (.alarms : ANode)
  rw [List.map_append, List.map_cons]
  simp only [List.mem_cons, List.mem_append] at hhead hlast ⊢
  tauto

/-- An alarm of the list is taken off it. -/
theorem Holds.listUnlink (h : s.Holds (l₁ ++ a :: l₂)) :
  Pdb.listUnlink (.next a) s
    = .done () { s with links := s.links.unlink .null (.next a) }
  := by
  have hx : ANode.next a ∈ .alarms :: (l₁ ++ a :: l₂).map .next := by simp
  have hring := h.ring
  rw [List.map_append, List.map_cons] at hring
  obtain ⟨hprev, hnext⟩ := hring.neighbours
  have hmem := @neighbours_mem l₁ l₂ a
  rw [← hnext, ← hprev] at hmem
  rw [Pdb.listUnlink, bind_done (h.access hx), bind_done (get_apply s),
    bind_done (h.access hmem.1), bind_done (h.access hmem.2)]
  rfl

/-- The state after the alarm `a` of the process `p` was delivered. -/
def deliver (a : Nat) (p : ProcId) (s : Pdb) : Pdb :=
  { s with
    kernel := s.kernel.alarmed p
    links := s.links.unlink .null (.next a)
    freed := s.freed ++ [a] }

/-- The list without the alarm that was delivered. -/
theorem Holds.deliver (h : s.Holds (l₁ ++ a :: l₂)) :
  (s.deliver a p).Holds (l₁ ++ l₂)
  := by
  have hring := h.ring
  rw [List.map_append, List.map_cons] at hring
  constructor
  case ring =>
    rw [List.map_append]
    apply hring.unlink
  case live =>
    intro b hb
    have hmem : b ∈ l₁ ++ a :: l₂ := by
      simp only [List.mem_append, List.mem_cons] at hb ⊢
      tauto
    have hne : b ≠ a := by
      rintro rfl
      apply (List.nodup_cons.mp ((List.perm_middle.nodup_iff).mp h.nodup)).1 hb
    rw [Pdb.deliver, List.mem_append, List.mem_singleton, not_or]
    exact ⟨h.live b hmem, hne⟩

/-! ### The loop -/

/-- An alarm that has not run out stays. -/
theorem Holds.ring_of_not_due (h : s.Holds l) (ha : a ∈ l) (hdue : ¬ s.Due a) :
  Pdb.ring s.kernel.systime (.next a) s = .done () s
  := by
  rw [Pdb.ring, bind_done (h.entry ha), bind_done (get_apply s),
    when_neg (show ¬ (s.alarm a).wakeTime ≤ s.kernel.systime from hdue)]
  rfl

/-- A signal is posted to the process that is in the table. -/
theorem syspostsignal_alarmed {k : Kernel} {pid : Int} (h₀ : 0 ≤ pid) (h₁ : pid ≤ maxProc)
    (hslot : k.procTable pid = .proc p) :
  syspostsignal pid sigAlarm k = .done () (k.alarmed p)
  := by
  rw [syspostsignal, if_neg (by omega), bind_done (get_apply k), hslot]
  rfl

theorem postsignal_done (hp : s.Names a p) :
  postsignal (s.alarm a).pid sigAlarm s = .done () { s with kernel := s.kernel.alarmed p }
  := by
  obtain ⟨h₀, h₁, hslot⟩ := hp
  rw [postsignal, onPart, syspostsignal_alarmed h₀ h₁ hslot]

theorem kfree_done (ha : a ∉ s.freed) :
  __kfree a s = .done () { s with freed := s.freed ++ [a] }
  := by
  rw [__kfree, bind_done (get_apply s), if_neg ha]
  rfl

/-- An alarm that has run out is taken off the list and freed, and its process gets the
signal. -/
theorem Holds.ring_of_due (h : s.Holds (l₁ ++ a :: l₂)) (hdue : s.Due a) (hp : s.Names a p) :
  Pdb.ring s.kernel.systime (.next a) s = .done () (s.deliver a p)
  := by
  have ha : a ∈ l₁ ++ a :: l₂ := by simp
  have hposted : Holds { s with kernel := s.kernel.alarmed p } (l₁ ++ a :: l₂) :=
    ⟨h.ring, h.live⟩
  rw [Pdb.ring, bind_done (h.entry ha), bind_done (get_apply s),
    when_pos (show (s.alarm a).wakeTime ≤ s.kernel.systime from hdue),
    bind_done (postsignal_done hp), bind_done hposted.listUnlink]
  apply kfree_done
  exact h.live a ha

/-- The state after the loop, with these links, when the alarms `l` were still to be looked
at. -/
noncomputable def delivered (links : Links ANode) (l : List Nat) (s : Pdb) : Pdb :=
  { s with
    kernel := s.kernel.rung (l.map s.alarm)
    links := links
    freed := s.freed ++ l.filter fun a => s.Due a }

theorem delivered_nil :
  s.delivered s.links [] = s
  := by
  simp [delivered, Kernel.rung_nil]

/-- An alarm that has not run out is passed over. -/
theorem delivered_cons_of_not_due (links : Links ANode) (hdue : ¬ s.Due a) :
  s.delivered links (a :: l) = s.delivered links l
  := by
  have hrings : ∀ q, ¬ s.kernel.Rings q [s.alarm a] := by
    rintro q ⟨b, hb, hb', -⟩
    obtain rfl := List.mem_singleton.mp hb
    apply hdue hb'
  rw [delivered, delivered, List.map_cons, Kernel.rung_cons_of_not hrings,
    List.filter_cons_of_neg (by simpa using hdue)]

/-- An alarm that has run out is delivered before the others. -/
theorem delivered_deliver (links : Links ANode) (hdue : s.Due a) (hp : s.Names a p) :
  (s.deliver a p).delivered links l = s.delivered links (a :: l)
  := by
  have hrings : s.kernel.Rings p [s.alarm a] :=
    ⟨_, List.mem_singleton_self _, hdue, hp.1, hp.2.1, hp.2.2⟩
  rw [delivered, delivered, List.map_cons, Kernel.rung_cons hrings,
    List.filter_cons_of_pos (by simpa using hdue), List.append_cons]
  rfl

/-- A turn of the loop. -/
theorem ringLoop_turn {now : BitVec 64} {n : Nat} {save save' : ANode} {s₁ : Pdb}
    (hring : ring now (.next a) s = .done () s₁)
    (hnext : nextEntryOrNull save s₁ = .done save' s₁) :
  ringLoop now (n + 1) (.next a) save s = ringLoop now n save save' s₁
  := by
  rw [ringLoop, if_neg (by simp), bind_done hring, bind_done hnext]

/-- The loop at the end of the list. -/
theorem ringLoop_alarms {now : BitVec 64} {n : Nat} {save : ANode} :
  ringLoop now (n + 1) .alarms save s = .done () s
  := by
  rw [ringLoop, if_pos (Or.inr rfl)]
  rfl

/-- The node after the next one is read before the body of the loop changes the list. -/
theorem Holds.nextEntryOrNull_headD (h : s.Holds (l₁ ++ l₂)) :
  ∃ x, Pdb.nextEntryOrNull ((l₂.map .next).headD .alarms) s = .done x s
    ∧ ∀ a l, l₂ = a :: l → x = (l.map .next).headD .alarms
  := by
  cases l₂ with
  | nil =>
      refine ⟨.null, rfl, ?_⟩
      intro a l hl
      cases hl
  | cons a l =>
      refine ⟨_, h.nextEntryOrNull, ?_⟩
      rintro a' l' ⟨⟩
      rfl

/-- The loop delivers the alarms that it has still to look at.  The alarms `l₁` were kept. -/
theorem Holds.ringLoop {n : Nat} {save : ANode} (h : s.Holds (l₁ ++ l₂)) (hn : l₂.length < n)
    (hsave : ∀ a l, l₂ = a :: l → save = (l.map .next).headD .alarms)
    (hnames : ∀ a ∈ l₂, ∃ p, s.Names a p) :
  ∃ links, Pdb.ringLoop s.kernel.systime n ((l₂.map .next).headD .alarms) save s
      = .done () (s.delivered links l₂)
    ∧ (s.delivered links l₂).Holds (l₁ ++ l₂.filter fun a => ¬ s.Due a)
  := by
  induction l₂ generalizing l₁ s n save with
  | nil =>
      cases n with
      | zero => cases hn
      | succ n =>
          refine ⟨s.links, ?_, ?_⟩
          · rw [delivered_nil]
            apply ringLoop_alarms
          · rw [delivered_nil]
            apply h
  | cons a l ih =>
      cases n with
      | zero => cases hn
      | succ n =>
          rw [hsave a l rfl]
          rw [List.length_cons, Nat.add_lt_add_iff_right] at hn
          have hrest : ∀ b ∈ l, ∃ p, s.Names b p := fun b hb =>
            hnames b (List.mem_cons_of_mem _ hb)
          by_cases hdue : s.Due a
          · obtain ⟨p, hp⟩ := hnames a List.mem_cons_self
            obtain ⟨save', hnext, hsave'⟩ := h.deliver.nextEntryOrNull_headD
            obtain ⟨links, hloop, hholds⟩ := ih (h.deliver (p := p)) hn hsave' hrest
            rw [delivered_deliver links hdue hp] at hloop hholds
            refine ⟨links, ?_, ?_⟩
            · rw [← hloop]
              apply ringLoop_turn (h.ring_of_due hdue hp) hnext
            · rw [List.filter_cons_of_neg (by simpa using hdue)]
              apply hholds
          · have hkept : s.Holds (l₁ ++ [a] ++ l) := by simpa using h
            have hturn := h.ring_of_not_due (by simp) hdue
            obtain ⟨save', hnext, hsave'⟩ := hkept.nextEntryOrNull_headD
            obtain ⟨links, hloop, hholds⟩ := ih hkept hn hsave' hrest
            refine ⟨links, ?_, ?_⟩
            · rw [delivered_cons_of_not_due links hdue, ← hloop]
              apply ringLoop_turn hturn hnext
            · rw [delivered_cons_of_not_due links hdue,
                List.filter_cons_of_pos (by simpa using hdue)]
              simpa using hholds

/-- The loop delivers the alarms of the list. -/
theorem Holds.ringAlarms {n : Nat} (h : s.Holds l) (hn : l.length < n)
    (hnames : ∀ a ∈ l, ∃ p, s.Names a p) :
  ∃ links, Pdb.ringAlarms n s = .done () (s.delivered links l)
    ∧ (s.delivered links l).Holds (l.filter fun a => ¬ s.Due a)
  := by
  have hfirst := h.ring.neighbours_head.1
  rw [Pdb.ringAlarms, bind_done (get_apply s)]
  cases l with
  | nil =>
      obtain ⟨m, rfl⟩ := Nat.exists_eq_add_of_lt hn
      have hempty : s.firstEntryOrNull = .null := if_pos hfirst
      refine ⟨s.links, ?_, ?_⟩
      · rw [delivered_nil, hempty, firstSave, if_pos rfl, bind_done (pure_apply _ _),
          Pdb.ringLoop, if_pos (Or.inl rfl)]
        rfl
      · rw [delivered_nil]
        apply h
  | cons a l =>
      have hentry : s.firstEntryOrNull = .next a := by
        rw [firstEntryOrNull, if_neg]
        · apply hfirst
        · rw [listIsEmpty, hfirst]
          nofun
      have hsave := @Holds.nextEntryOrNull s [] l a h
      obtain ⟨links, hloop, hholds⟩ := @Holds.ringLoop s [] (a :: l) n _ h hn
        (by
          rintro _ _ ⟨⟩
          rfl) hnames
      refine ⟨links, ?_, hholds⟩
      rw [hentry, firstSave, if_neg nofun, bind_done hsave]
      apply hloop

/-! ### The handler -/

/-- What the handler does to a list of alarms `l`: those that have run out are taken off the
list and freed, each once, and `SigAlarm` is posted to their processes. -/
structure Delivers (s : Pdb) (l : List Nat) (s' : Pdb) : Prop where
  kept : s'.Holds (l.filter fun a => ¬ s.Due a)
  freed : s'.freed = s.freed ++ l.filter fun a => s.Due a
  kernel : s'.kernel = s.kernel.rung (l.map s.alarm)
  alarm : s'.alarm = s.alarm

/-- The states differ in the count of interrupts and in the calls of the hardware only. -/
structure Same (s s' : Pdb) : Prop where
  kernel : s'.kernel = s.kernel
  links : s'.links = s.links
  freed : s'.freed = s.freed
  alarm : s'.alarm = s.alarm

theorem same_called (c : HwCall) (h : s.Same s') :
  s.Same { s' with calls := s'.calls ++ [c] }
  := ⟨h.kernel, h.links, h.freed, h.alarm⟩

theorem Same.holds (hs : s.Same s') (h : s.Holds l) :
  s'.Holds l
  := by
  constructor
  · rw [hs.links]
    apply h.ring
  · rw [hs.freed]
    apply h.live

theorem Same.due (hs : s.Same s') :
  s'.Due = s.Due
  := by
  funext a
  rw [Due, Due, hs.kernel, hs.alarm]

theorem Same.names (hs : s.Same s') (h : s.Names a p) :
  s'.Names a p
  := by
  rw [Names, hs.kernel, hs.alarm]
  exact h

/-- A list without alarms is left alone. -/
theorem Same.delivers_nil (hs : s.Same s') (h : s.Holds []) :
  s.Delivers [] s'
  := by
  constructor
  case kept => apply hs.holds h
  case freed => simp [hs.freed]
  case kernel => exact hs.kernel.trans (Kernel.rung_nil _).symm
  case alarm => apply hs.alarm

/-- The alarms of a list are delivered between the calls of the hardware. -/
theorem Same.ringAlarms {n : Nat} (hs : s.Same s') (h : s.Holds l) (hn : l.length < n)
    (hnames : ∀ a ∈ l, ∃ p, s.Names a p) :
  Returns s' (Pdb.ringAlarms n) fun _ t => s.Delivers l t
  := by
  have hnames' : ∀ a ∈ l, ∃ p, s'.Names a p := by
    intro a ha
    obtain ⟨p, hp⟩ := hnames a ha
    exact ⟨p, hs.names hp⟩
  obtain ⟨links, hrun, hkept⟩ := (hs.holds h).ringAlarms hn hnames'
  refine ⟨(), _, hrun, ?_⟩
  have hdue := hs.due
  constructor
  case kept => simpa only [hdue] using hkept
  case freed => simp only [delivered, hs.freed, hdue]
  case kernel => rw [delivered, hs.kernel, hs.alarm]
  case alarm => apply hs.alarm

/-- The handler delivers the alarms that have run out. -/
theorem Holds.pdbHandler {n : Nat} (h : s.Holds l) (htimer : s.timer = true)
    (hn : l.length < n) (hnames : ∀ a ∈ l, ∃ p, s.Names a p) :
  Returns s (Pdb.pdbHandler n) fun _ s' => s.Delivers l s'
  := by
  have hcount : s.Same { s with pdbInterruptCount := s.pdbInterruptCount + 1 } :=
    ⟨rfl, rfl, rfl, rfl⟩
  have hclear := same_called .clear hcount
  rw [Pdb.pdbHandler]
  apply Returns.step (modify_apply _ _)
  apply Returns.get
  rw [when_pos htimer]
  apply Returns.step (modify_apply _ _)
  apply Returns.get
  revert hclear
  generalize ({ s with
    pdbInterruptCount := s.pdbInterruptCount + 1
    calls := s.calls ++ [.clear] } : Pdb) = s₁
  intro hclear
  by_cases hempty : s₁.listIsEmpty
  · rw [when_neg (not_not_intro hempty)]
    have hnil := (hclear.holds h).eq_nil hempty
    subst hnil
    apply Returns.pure
    exact hclear.delivers_nil h
  · rw [when_pos hempty, ringTimer]
    apply Returns.step (modify_apply _ _)
    apply Returns.bind ((same_called .stop hclear).ringAlarms h hn hnames)
    rintro _ s₂ hs₂
    refine ⟨(), _, modify_apply _ _, ?_⟩
    exact ⟨⟨hs₂.kept.ring, hs₂.kept.live⟩, hs₂.freed, hs₂.kernel, hs₂.alarm⟩

/-- The loop over the alarms as a list keeps those that have not run out. -/
theorem expire_names {l : List Alarm} {k : Kernel}
    (hnames : ∀ a ∈ l, ∃ p, 0 ≤ a.pid ∧ a.pid ≤ maxProc ∧ k.procTable a.pid = .proc p) :
  expire k.systime l k = .done (l.filter fun a => ¬ a.wakeTime ≤ k.systime) (k.rung l)
  := by
  have hreturns : ∃ kept k', expire k.systime l k = .done kept k' := by
    generalize k.systime = now
    induction l generalizing k with
    | nil => exact ⟨_, _, rfl⟩
    | cons a l ih =>
        rw [List.forall_mem_cons] at hnames
        obtain ⟨⟨p, h₀, h₁, hslot⟩, hrest⟩ := hnames
        rw [expire]
        split
        · rw [bind_done (syspostsignal_alarmed h₀ h₁ hslot)]
          apply @ih (k.alarmed p) hrest
        · obtain ⟨kept, k', hrun⟩ := ih hrest
          rw [bind_done hrun]
          exact ⟨_, _, rfl⟩
  obtain ⟨kept, k', hrun⟩ := hreturns
  obtain ⟨rfl, rfl⟩ := expire_done rfl hrun
  apply hrun

/-- The handler does to the list in memory what the handler over the alarms as a list does. -/
theorem Delivers.refines (h : s.Delivers l s') (hnames : ∀ a ∈ l, ∃ p, s.Names a p) :
  Process.pdbHandler { s.kernel with alarms := l.map s.alarm }
    = .done () { s'.kernel with alarms := (l.filter fun a => ¬ s.Due a).map s'.alarm }
  := by
  have hexpire := @expire_names (l.map s.alarm) { s.kernel with alarms := l.map s.alarm }
    (by
      intro b hb
      obtain ⟨a, ha, rfl⟩ := List.mem_map.mp hb
      apply hnames a ha)
  rw [Process.pdbHandler, bind_done (get_apply _), bind_done hexpire, modify_apply, h.kernel,
    h.alarm, List.filter_map]
  rfl

/-- One run of the handler posts `SigAlarm` to the processes with an alarm that has run out,
takes those alarms off the list and frees each of them once, keeps the others in their order,
and returns. -/
theorem alarms_exact {n : Nat} (h : s.Holds l) (htimer : s.timer = true) (hn : l.length < n)
    (hnames : ∀ a ∈ l, ∃ p, s.Names a p) :
  Returns s (Pdb.pdbHandler n) fun _ s' =>
    s'.Holds (l.filter fun a => ¬ s.Due a)
    ∧ (s'.freed = s.freed ++ l.filter fun a => s.Due a)
    ∧ (∀ p, (∃ a ∈ l, s.Due a ∧ s.Names a p) →
        s'.kernel.procs p = { s.kernel.procs p with
          sigPending :=
            (s.kernel.procs p).sigPending ||| (sigAlarm &&& ~~~ (s.kernel.procs p).sigMask) })
    ∧ (∀ p, ¬ (∃ a ∈ l, s.Due a ∧ s.Names a p) → s'.kernel.procs p = s.kernel.procs p)
    ∧ { s'.kernel with procs := s.kernel.procs } = s.kernel
    ∧ s'.alarm = s.alarm
  := by
  apply (h.pdbHandler htimer hn hnames).mono
  rintro _ s' hs'
  have hrings : ∀ p, s.kernel.Rings p (l.map s.alarm) ↔ ∃ a ∈ l, s.Due a ∧ s.Names a p := by
    intro p
    simp only [Kernel.Rings, List.mem_map, exists_exists_and_eq_and]
    rfl
  refine ⟨hs'.kept, hs'.freed, ?_, ?_, ?_, hs'.alarm⟩
  · intro p hp
    rw [hs'.kernel, Kernel.rung_of_rings ((hrings p).mpr hp)]
  · intro p hp
    rw [hs'.kernel, Kernel.rung_of_not (mt (hrings p).mp hp)]
  · rw [hs'.kernel]
    rfl

/-- Two of three alarms of a process have run out. -/
def threeAlarms : Pdb where
  kernel := powerOn fun i => if i = 5 then .proc 3 else .null
  pdbInterruptCount := 0
  timer := true
  links := (((Links.init .alarms ⟨fun _ => .null, fun _ => .null⟩).addBefore (.next 0)
    .alarms).addBefore (.next 1) .alarms).addBefore (.next 2) .alarms
  alarm := fun a => ⟨if a = 1 then 7 else 0, 5⟩
  freed := []
  calls := []

/-- The second of three alarms is kept. -/
theorem alarms_exact_three :
  Returns threeAlarms (pdbHandler 4) fun _ s' =>
    s'.Holds [1] ∧ s'.freed = [0, 2] ∧ (s'.kernel.procs 3).sigPending = sigAlarm
  := by
  have hring : threeAlarms.links.Ring .alarms ([0, 1, 2].map .next) :=
    ((Links.alone_init.ring.addBefore (by decide)).addBefore (by decide)).addBefore (by decide)
  have hnames : ∀ a, threeAlarms.Names a 3 := fun a =>
    ⟨show (0 : Int) ≤ 5 by decide, show (5 : Int) ≤ maxProc by decide, rfl⟩
  apply (alarms_exact ⟨hring, nofun⟩ rfl (show _ < 4 by decide) fun a _ => ⟨3, hnames a⟩).mono
  rintro _ s' ⟨hkept, hfreed, hposted, -⟩
  refine ⟨hkept, hfreed, ?_⟩
  rw [hposted 3 ⟨0, by decide, by decide, hnames 0⟩]
  decide

end Pdb

end Process
