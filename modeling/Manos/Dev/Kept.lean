import Manos.Dev.Opening

/-!
# What calls leave as it is

A read leaves the device and the crumb of its portal as they are, whatever it stores and however it
ends, and the information functions leave everything.
-/

namespace Dev

open Exec

variable {σ γ : Type} {g : σ → γ} {pf : Platform}

/-! ### Static namespaces -/

theorem entryAt_keeps (ns : List StaticNS) (i : ℕ) :
  Preserves g (entryAt ns i)
  := by
  rw [entryAt]
  split
  · apply Preserves.pure
  · apply Preserves.fault

theorem firstChild_keeps (selfIdx : ℕ) (ns : List StaticNS) :
  Preserves g (firstChild selfIdx ns)
  := by
  induction ns with
  | nil => apply Preserves.fault
  | cons sns ns ih =>
      rw [firstChild]
      split
      · apply Preserves.pure
      · split
        · apply Preserves.pure
        · exact ih

theorem getNodeInfoStaticNS_keeps (p : Portal) (ns : List StaticNS) (d : WalkDirection) :
  Preserves g (getNodeInfoStaticNS p ns d)
  := by
  rw [getNodeInfoStaticNS]
  refine .bind (Preserves.assert g _ _) fun _ => ?_
  cases d with
  | up => exact .bind (entryAt_keeps _ _) fun _ => Preserves.pure g _
  | down =>
      simp only
      split
      · apply Preserves.pure
      · exact .bind (firstChild_keeps _ _) fun _ => Preserves.pure g _
  | prev =>
      have hprev : Preserves g (do
          let sns ← entryAt ns (p.crumb.selfIdx - 1)
          if p.crumb.parentIdx ≠ sns.crumb.parentIdx then return none
          return some (mkNodeInfo p sns)) := by
        refine .bind (entryAt_keeps _ _) fun _ => ?_
        split
        · apply Preserves.pure
        · apply Preserves.pure
      simp only
      split
      · exact .bind (Preserves.fault g _) fun _ => hprev
      · exact hprev
  | next =>
      refine .bind (entryAt_keeps _ _) fun _ => ?_
      split
      · apply Preserves.pure
      · apply Preserves.pure
  | self => exact .bind (entryAt_keeps _ _) fun _ => Preserves.pure g _

/-! ### Information -/

theorem lengthLoop_keeps {g : Heap → γ} (k : ℕ) (px : Portal) (nix : Option NodeInfo) (length : ℕ) :
  Preserves g (lengthLoop k px nix length)
  := by
  induction k generalizing px nix length with
  | zero =>
      cases nix with
      | none => apply Preserves.pure
      | some ni => apply Preserves.fault
  | succ k ih =>
      cases nix with
      | none => apply Preserves.pure
      | some ni => exact .bind (getNodeInfoStaticNS_keeps _ _ _) fun nix => ih _ nix _

theorem Device.getInfo_keeps {g : Heap → γ} (d : Device) (p : Portal) :
  Preserves g (d.getInfo pf p)
  := by
  cases d with
  | root =>
      refine .bind (getNodeInfoStaticNS_keeps _ _ _) fun ni => ?_
      split
      · apply Preserves.pure
      · split
        · refine .bind (getNodeInfoStaticNS_keeps _ _ _) fun nix => ?_
          exact .bind (lengthLoop_keeps _ _ _ _) fun _ => Preserves.pure g _
        · apply Preserves.pure
  | _ => exact getNodeInfoStaticNS_keeps p _ .self

/-! ### Reads -/

/-- Where the portal is. -/
def Reading.place (s : Reading) : ℤ × Crumb := (s.portal.device, s.portal.crumb)

theorem copy_keeps (i : ℕ) (l : List Byte) :
  Preserves Reading.place (copy i l)
  := by
  intro s
  rw [copy_eq]
  rfl

theorem addOffset_keeps (n : ℕ) :
  Preserves Reading.place (addOffset n)
  := fun _ => rfl

theorem entriesLoop_keeps (ns : List StaticNS) (k : ℕ) (px : Portal) (nix : Option NodeInfo)
    (bytes c skip entries : ℕ) :
  Preserves Reading.place (entriesLoop ns k px nix bytes c skip entries)
  := by
  induction k generalizing px nix bytes c skip entries with
  | zero =>
      cases nix with
      | none => apply Preserves.pure
      | some ni => apply Preserves.fault
  | succ k ih =>
      cases nix with
      | none => apply Preserves.pure
      | some ni =>
          rw [entriesLoop]
          split
          · simp only
            split
            · exact .bind (getNodeInfoStaticNS_keeps _ _ _) fun nix => ih _ nix _ _ _ _
            · refine .bind (copy_keeps _ _) fun _ => ?_
              exact .bind (getNodeInfoStaticNS_keeps _ _ _) fun nix => ih _ nix _ _ _ _
          · apply Preserves.pure

theorem Contents.take_keeps (n : ℕ) (c : Contents) :
  Preserves Reading.place (c.take n)
  := by
  rw [Contents.take.eq_def]
  split
  · apply Preserves.fault
  · split
    · apply Preserves.pure
    · apply Preserves.fault
  · apply Preserves.fault

theorem readStaticNS_keeps (ns : List StaticNS) (size offset : ℕ) :
  Preserves Reading.place (readStaticNS pf ns size offset)
  := by
  rw [readStaticNS]
  split
  · apply Preserves.pure
  refine .bind (Preserves.get _) fun s => .bind (entryAt_keeps _ _) fun e => ?_
  split
  · refine .bind (getNodeInfoStaticNS_keeps _ _ _) fun nix => ?_
    refine .bind (entriesLoop_keeps _ _ _ _ _ _ _ _) fun entries => ?_
    exact .bind (addOffset_keeps _) fun _ => Preserves.pure _ _
  · split
    · apply Preserves.pure
    · refine .bind (Contents.take_keeps _ _) fun l => .bind (copy_keeps _ _) fun _ => ?_
      exact .bind (addOffset_keeps _) fun _ => Preserves.pure _ _

/-- A read function that leaves directories to `readStaticNS` and reads files by `f`. -/
theorem readFile_keeps {ns : List StaticNS} {size offset : ℕ} {small : Prop} [Decidable small]
    {f : Reading → Exec Reading ℤ} (hf : ∀ s, Preserves Reading.place (f s)) :
  Preserves Reading.place (if small then pure 0 else get >>= fun s =>
    if s.portal.crumb.isDir = true then readStaticNS pf ns size offset else f s)
  := by
  split
  · apply Preserves.pure
  refine .bind (Preserves.get _) fun s => ?_
  split
  · apply readStaticNS_keeps
  · exact hf s

theorem getcLoop_keeps (getc : ℕ → Byte) (k i : ℕ) :
  Preserves Reading.place (getcLoop getc k i)
  := by
  induction k generalizing i with
  | zero => apply Preserves.pure
  | succ k ih => exact .bind (Preserves.modify fun _ => rfl) fun _ => ih (i + 1)

theorem readUart_keeps (hw : Hardware) (size offset : ℕ) :
  Preserves Reading.place (readUart pf hw size offset)
  := by
  rw [readUart]
  refine readFile_keeps fun s => .bind (getNodeInfoStaticNS_keeps _ _ _) fun ni => ?_
  split
  · apply Preserves.pure
  · split
    · split
      · split
        · apply Preserves.fault
        · split
          · apply Preserves.pure
          · exact .bind (getcLoop_keeps _ _ _) fun _ => Preserves.pure _ _
      · apply Preserves.fault
    · apply Preserves.pure

theorem readTimer_keeps (hw : Hardware) (size offset : ℕ) :
  Preserves Reading.place (readTimer pf hw size offset)
  := by
  rw [readTimer]
  refine readFile_keeps fun s => .bind (getNodeInfoStaticNS_keeps _ _ _) fun ni => ?_
  split
  · apply Preserves.pure
  · split
    · split
      · apply Preserves.fault
      · split
        · apply Preserves.pure
        · split
          · apply Preserves.pure
          · exact .bind (copy_keeps _ _) fun _ => Preserves.pure _ _
    · apply Preserves.fault

theorem readDate_keeps (hw : Hardware) :
  Preserves Reading.place (readDate hw)
  := by
  refine .bind (copy_keeps _ _) fun _ => ?_
  split
  · apply Preserves.fault
  · apply copy_keeps

theorem interruptsLoop_keeps (size : ℕ) (l : List (Name × BitVec 64)) (buf : ℕ → Byte)
    (bytes : ℕ) :
  Preserves Reading.place (interruptsLoop size l buf bytes)
  := by
  induction l generalizing buf bytes with
  | nil => apply Preserves.pure
  | cons x l ih =>
      obtain ⟨name, counter⟩ := x
      rw [interruptsLoop]
      split
      · apply Preserves.fault
      · simp only
        split
        · apply ih
        · apply Preserves.pure

theorem readDevDev_keeps (hw : Hardware) (fileInfo : ℕ → Byte) (size offset : ℕ) :
  Preserves Reading.place (readDevDev pf hw fileInfo size offset)
  := by
  rw [readDevDev]
  refine readFile_keeps fun s => ?_
  simp only
  split
  · split
    · exact .bind (readDate_keeps hw) fun _ => Preserves.pure _ _
    · apply Preserves.pure
  · split
    · have hinfo : Preserves Reading.place (readInterrupts hw fileInfo intMapSize) := by
        refine .bind (interruptsLoop_keeps _ _ _ _) ?_
        rintro ⟨_, _⟩
        simp only
        split
        · apply Preserves.pure
        · apply Preserves.fault
      refine .bind hinfo fun x => ?_
      split
      · refine .bind (copy_keeps _ _) fun _ => .bind (addOffset_keeps _) fun _ => ?_
        apply Preserves.pure
      · apply Preserves.pure
    · apply Preserves.pure

/-- A read leaves the portal where it is. -/
theorem Device.read_keeps (d : Device) (hw : Hardware) (fileInfo : ℕ → Byte) (size offset : ℕ) :
  Preserves Reading.place (d.read pf hw fileInfo size offset)
  := by
  cases d with
  | root => apply readStaticNS_keeps
  | led =>
      rw [Device.read, readLed]
      refine readFile_keeps fun s => ?_
      split
      · apply Preserves.pure
      · simp only
        split
        · refine .bind (Preserves.modify fun _ => rfl) fun _ => ?_
          exact .bind (addOffset_keeps _) fun _ => Preserves.pure _ _
        · apply Preserves.pure
  | swpb =>
      rw [Device.read, readSwpb]
      refine readFile_keeps fun s => ?_
      simp only
      generalize (if s.portal.crumb.selfIdx = fidOne ∨ s.portal.crumb.selfIdx = fidTwo then
        s.portal.crumb.selfIdx + fidTwo else s.portal.crumb.selfIdx) = fid
      split
      · refine .bind (Preserves.modify fun _ => rfl) fun _ => .bind (addOffset_keeps _) fun _ => ?_
        apply Preserves.pure
      · apply Preserves.pure
  | uart => apply readUart_keeps
  | lcd =>
      rw [Device.read, readLcd]
      exact readFile_keeps fun s => Preserves.pure _ _
  | adc =>
      rw [Device.read, readAdc]
      refine readFile_keeps fun s => ?_
      simp only
      split
      · refine .bind (copy_keeps _ _) fun _ => .bind (addOffset_keeps _) fun _ => ?_
        apply Preserves.pure
      · apply Preserves.pure
  | timer => apply readTimer_keeps
  | dev => apply readDevDev_keeps

end Dev
