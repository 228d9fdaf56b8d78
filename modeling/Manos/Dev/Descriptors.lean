import Manos.Dev.Life

/-!
# The table of descriptors

For every call of a process, in every state that it reaches, what the table of descriptors promises,
and the condition under which the call keeps the promise.  The calls look into the table before they
compare the descriptor with zero, and never with the length of the table.
-/

namespace Dev

open Exec

variable {pf : Platform} {s : Files} {own : Set ℕ} {c : Call} {fd : ℤ}

/-! ### Promises and conditions -/

/-- The descriptor is not open: it is negative or too large, or there is no portal for it. -/
def NotOpen (s : Files) (fd : ℤ) : Prop := ∀ n : ℕ, fd = n → n < maxFd → s.table n = none

/--
What a call does with the table.  It answers `EBADF` for a descriptor that is not open, and changes
nothing else.  `sysopen` returns the lowest descriptor that is free, and opens it, or `-1`, and then
the table is as it was.  `sysclose` of an open descriptor frees it and its portal, and no other.
-/
def Call.Respects (pf : Platform) (s : Files) (c : Call) : Prop :=
  (∀ fd, c.descriptor = some fd → NotOpen s fd →
    c.run pf s = .done c.refused { s with errno := .ebadf }) ∧
  match c with
  | .sysopen path caps => Returns s (Dev.sysopen pf path caps) fun r s' =>
      r = -1 ∧ s'.table = s.table ∨
        ∃ n : ℕ, r = n ∧ n < maxFd ∧ s.table n = none ∧ (∀ j < n, s.table j ≠ none) ∧
          ∃ x, s'.table = Function.update s.table n (some x)
  | .sysclose fd => ∀ (n : ℕ) a p, fd = n → s.table n = some (a, p) →
      Returns s (Dev.sysclose pf fd) fun _ s' =>
        s'.table = Function.update s.table n none ∧ s'.heap.live = s.heap.live.erase a
  | _ => True

/--
The condition on a call: there is memory for the path and the walk of `sysopen`, and no mount at a
file in its way; a descriptor is in the table; and a descriptor of the lcd device is closed only if
there is a screen.
-/
def Call.Meets (pf : Platform) (s : Files) : Call → Prop
  | .sysopen path _ => Opens (rootNode pf) path s.heap
  | .sysclose fd => (0 ≤ fd ∧ fd < maxFd) ∧ ∀ a p, s.table fd.toNat = some (a, p) →
      p.device = Device.lcd.index → pf.lcdScreen = true
  | .sysread _ _ fd _ => 0 ≤ fd ∧ fd < maxFd
  | .syswrite _ fd _ => 0 ≤ fd ∧ fd < maxFd
  | .sysgetInfoFd fd => 0 ≤ fd ∧ fd < maxFd
  | .dirread _ _ fd => 0 ≤ fd ∧ fd < maxFd

/-! ### Descriptors that are not open -/

/-- A call on a descriptor outside the table stops. -/
theorem Call.run_outside (hfd : c.descriptor = some fd) (h : ¬ (0 ≤ fd ∧ fd < maxFd))
    (s : Files) :
  c.run pf s = .stop (.wild "descriptorTable") s
  := by
  cases c with
  | sysopen path caps => cases hfd
  | _ =>
      cases hfd
      exact bind_stop (withDescriptor_outside h _ _ s)

/-- A call on a descriptor that is not open answers `EBADF`. -/
theorem Call.run_closed {n : ℕ} (hfd : c.descriptor = some (n : ℤ)) (hn : n < maxFd)
    (htable : s.table n = none) :
  c.run pf s = .done c.refused { s with errno := .ebadf }
  := by
  cases c with
  | sysopen path caps => cases hfd
  | _ =>
      cases hfd
      exact bind_done (withDescriptor_closed hn htable _ _)

/-- A call answers as it should where its descriptor is not open, exactly if it is in the table. -/
theorem Call.refused_iff (hfd : c.descriptor = some fd) (pf : Platform) (s : Files) :
  (∀ fd, c.descriptor = some fd → NotOpen s fd →
    c.run pf s = .done c.refused { s with errno := .ebadf }) ↔ 0 ≤ fd ∧ fd < maxFd
  := by
  constructor
  · intro h
    by_contra hrange
    have hout : NotOpen s fd := by
      rintro n rfl hn
      exact absurd ⟨Int.natCast_nonneg n, Int.ofNat_lt.mpr hn⟩ hrange
    have hrun := h fd hfd hout
    rw [c.run_outside hfd hrange] at hrun
    cases hrun
  · rintro ⟨h₀, h₁⟩ fd' hfd' hnot
    cases hfd.symm.trans hfd'
    obtain ⟨n, rfl⟩ := Int.eq_ofNat_of_zero_le h₀
    have hn : n < maxFd := Int.ofNat_lt.mp h₁
    exact c.run_closed hfd hn (hnot n rfl hn)

/-! ### Opening and closing -/

theorem sysopen_respects_iff (h : s.Inv pf own) (path : Name) (caps : ℕ) :
  (Call.sysopen path caps).Respects pf s ↔ Opens (rootNode pf) path s.heap
  := by
  constructor
  · rintro ⟨-, r, s', hrun, -⟩
    exact opens_of_done (h.start path) (rootNode_not_isMount pf) hrun
  · intro hopens
    refine ⟨nofun, (sysopen_returns (h.start path) (rootNode_not_isMount pf) hopens caps).mono ?_⟩
    intro r s' hopened
    cases hopened with
    | refused H e hlive hwhy => exact .inl ⟨rfl, rfl⟩
    | opened H fd a p w hfd hw hp hpath hportal hlive ha =>
        obtain ⟨hlt, hnone, hlow⟩ := firstFree_eq_some_iff.mp hfd
        exact .inr ⟨fd, rfl, hlt, hnone, hlow, _, rfl⟩

theorem Device.index_injective {d d' : Device} (h : d.index = d'.index) :
  d = d'
  := by
  revert h
  cases d <;> cases d' <;> decide

theorem sysclose_respects_iff (h : s.Inv pf own) (fd : ℤ) :
  (Call.sysclose fd).Respects pf s ↔ (Call.sysclose fd).Meets pf s
  := by
  rw [Call.Respects, Call.Meets, Call.refused_iff rfl]
  refine and_congr_right fun hrange => ?_
  obtain ⟨n, rfl⟩ := Int.eq_ofNat_of_zero_le hrange.1
  have hn : n < maxFd := Int.ofNat_lt.mp hrange.2
  constructor
  · intro hclose a p hp hlcd
    rw [Int.toNat_natCast] at hp
    obtain ⟨w, hat⟩ := h.nodes n a p hp
    obtain ⟨u, s', hrun, -⟩ := hclose n a p rfl hp
    exact closes_of_done hn hp hat hrun (Device.index_injective (hat.device.symm.trans hlcd))
  · rintro hscreen m a p ⟨⟩ hp
    obtain ⟨w, hat⟩ := h.nodes n a p hp
    have hw : Closes w := fun hlcd =>
      hscreen a p hp (hat.device.trans (congrArg Device.index hlcd))
    have ha := (h.blocks.mem _ a (held_descriptor hp)).2
    refine (sysclose_returns hn hp hat hw ha).mono ?_
    rintro u s' ⟨m, e, rfl⟩
    exact ⟨rfl, rfl⟩

/-! ### Every life -/

/--
In every life of every process, a call keeps the promises of the table of descriptors exactly if it
meets the condition.
-/
theorem descriptors_respected_iff {p₀ p : Proc} (h₀ : p₀.OnFreelist)
    (hlife : Life pf p₀ .running p own) (c : Call) :
  c.Respects pf p.files ↔ c.Meets pf p.files
  := by
  have h : p.files.Inv pf own := (Life.inv h₀ hlife : p.Inv pf own).files
  have hcall : ∀ {c : Call} {fd : ℤ}, c.descriptor = some fd →
      (((∀ fd, c.descriptor = some fd → NotOpen p.files fd →
        c.run pf p.files = .done c.refused { p.files with errno := .ebadf }) ∧ True) ↔
        0 ≤ fd ∧ fd < maxFd) := by
    intro c fd hfd
    rw [and_true, Call.refused_iff hfd]
  cases c with
  | sysopen path caps => exact sysopen_respects_iff h path caps
  | sysclose fd => exact sysclose_respects_iff h fd
  | _ => exact hcall rfl

/-- A process that was just made opens the file `/bin/pwd`. -/
theorem descriptors_respected_iff_pwd :
  ∃ p own, Life .k70cw freshProc .running p own ∧
    ((Call.sysopen (text "/bin/pwd") 0).Respects .k70cw p.files ↔
      (Call.sysopen (text "/bin/pwd") 0).Meets .k70cw p.files)
  := by
  obtain ⟨p, own, hlife⟩ := exists_life .k70cw
  exact ⟨p, own, hlife, descriptors_respected_iff freshProc_onFreelist hlife _⟩

/-- A process that was just made reads from the descriptor that an open that failed has returned. -/
theorem sysread_outside :
  ∃ p own, Life .k70cw freshProc .running p own ∧
    ¬ (Call.sysread quietHardware (fun _ => 0) (-1) 8).Respects .k70cw p.files
  := by
  obtain ⟨p, own, hlife⟩ := exists_life .k70cw
  refine ⟨p, own, hlife, ?_⟩
  rintro ⟨hrefused, -⟩
  have hout : NotOpen p.files (-1) := by
    intro n hn
    omega
  have hrun := hrefused (-1) rfl hout
  rw [Call.run_outside rfl (by decide)] at hrun
  cases hrun

end Dev
