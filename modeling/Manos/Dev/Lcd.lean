import Manos.Lib.CStr
import Manos.Lib.Exec
import Manos.Lib.Word32

/-!
# The LCD

The functions of `lcd.c` on the frame buffer and the cursor of the console.  A store outside the
frame buffer is a fault.  The cursor stays where a character has its place on the screen.
-/

namespace Dev

open Exec

/-! ### Geometry -/

/-- `LCD_XSIZE` -/
def lcdXSize : Nat := 480

/-- `LCD_YSIZE` -/
def lcdYSize : Nat := 272

/-- `LCD_BPP`, in bytes -/
def lcdBpp : Nat := 4

/-- `PROFONT_FONT_HEIGHT` -/
def consFontH : Nat := 12

/-- `PROFONT_FONT_WIDTH` -/
def consFontW : Nat := 6

/-- `PROFONT_CHARS_IN_FONT` -/
def profontChars : Nat := 256

/-- `consTabSpc` -/
def consTabSpc : Nat := 8

/-- The number of the pixels. -/
def pixels : Nat := lcdXSize * lcdYSize

/-- The variables of an `Lcd`, and the frame buffer as words. -/
structure Lcd where
  fbSize : Nat
  bg : BitVec 32
  fg : BitVec 32
  consX : Nat
  consY : Nat
  mmap : Nat → BitVec 32

/-- `LCD_PIXEL`, with the mask and the shift of a color -/
def lcdPixel (p mask : BitVec 32) (shift : Nat) : Byte := ((p &&& mask) >>> shift).setWidth 8

/-- The byte that all three colors of `p` have, if they have the same. -/
def monochrome (p : BitVec 32) : Option Byte :=
  let r := lcdPixel p 0x00ff0000 16
  let g := lcdPixel p 0x0000ff00 8
  let b := lcdPixel p 0x000000ff 0
  if r = g ∧ r = b then some r else none

/-! ### The frame buffer -/

/-- Store a word in the frame buffer. -/
def setPixel (i : Nat) (x : BitVec 32) : Exec Lcd Unit := do
  if i < pixels then modify fun lcd => { lcd with mmap := Function.update lcd.mmap i x }
  else fault (.wild "mmap")

/-- Store `n` times the word `x` from the word `i` on. -/
def fill (i n : Nat) (x : BitVec 32) : Exec Lcd Unit := do
  if i + n ≤ pixels then
    modify fun lcd => { lcd with mmap := fun j => if i ≤ j ∧ j < i + n then x else lcd.mmap j }
  else fault (.wild "mmap")

/-- Set `n` words from the word `i` on to the byte `r`, as `kmemset` does. -/
def fillBytes (i n : Nat) (r : Byte) : Exec Lcd Unit := fill i n (r ++ r ++ r ++ r)

/-- Move `n` words from the word `i` on to the start of the frame buffer. -/
def moveToStart (i n : Nat) : Exec Lcd Unit := do
  if i + n ≤ pixels then
    modify fun lcd => { lcd with mmap := fun j => if j < n then lcd.mmap (i + j) else lcd.mmap j }
  else fault (.wild "mmap")

/-! ### The functions of `lcd.c` -/

/--
Fill with the background, from the word `i` on, where a background with one color sets its byte
in `n` words, and any other sets the words from `j` to the end.
-/
def clearFrom (bg : BitVec 32) (i n j : Nat) : Exec Lcd Unit :=
  match monochrome bg with
  | some r => fillBytes i n r
  | none => fill j (pixels - j) bg

/-- `k70LcdClear` -/
def k70LcdClear : Exec Lcd Unit := do
  let lcd ← get
  clearFrom lcd.bg 0 (lcd.fbSize / lcdBpp) 0
  modify fun lcd => { lcd with consX := 0, consY := lcdYSize - consFontH }

/-- What `k70LcdEnable` does to the variables of the `Lcd`. -/
def k70LcdEnable : Exec Lcd Unit := do
  modify fun lcd => { lcd with fbSize := lcdXSize * lcdYSize * lcdBpp, bg := 0x00ffffff, fg := 0 }
  k70LcdClear

/-- `k70LcdScroll` -/
def k70LcdScroll : Exec Lcd Unit := do
  let lcd ← get
  -- scroll up from bottom
  moveToStart (consFontH * lcdXSize) (lcd.consY * lcdXSize)
  -- clear last row, with a sum where the row is a product in the other case
  clearFrom lcd.bg (lcd.consY * lcdXSize) (Word32.sub lcdYSize lcd.consY * lcdXSize)
    (lcd.consY + lcdXSize)

/-- `profont[c][y][x]`, where `profont` tells which pixels of a character are set. -/
def loadGlyph (profont : Nat → Nat → Nat → Bool) (c y x : Nat) : Exec Lcd Bool := do
  if c < profontChars ∧ y < consFontH ∧ x < consFontW then return profont c y x
  else fault (.wild "profont")

/-- The inner loop of `k70LcdPutc`, over `k` columns from the column `x` on. -/
def columnsLoop (profont : Nat → Nat → Nat → Bool) (c y start : Nat) :
    Nat → Nat → Exec Lcd Unit
  | 0, _ => pure ()
  | k + 1, x => do
      let lcd ← get
      let set ← loadGlyph profont c y x
      setPixel (start + (x + lcd.consX)) (if set then lcd.fg else lcd.bg)
      columnsLoop profont c y start k (x + 1)

/-- The outer loop of `k70LcdPutc`, over `k` rows from the row `y` on. -/
def rowsLoop (profont : Nat → Nat → Nat → Bool) (c : Nat) : Nat → Nat → Exec Lcd Unit
  | 0, _ => pure ()
  | k + 1, y => do
      let lcd ← get
      columnsLoop profont c y ((y + lcd.consY) * lcdXSize) consFontW 0
      rowsLoop profont c k (y + 1)

/-- The `switch` of `k70LcdPutc` -/
def putChar (profont : Nat → Nat → Nat → Bool) (c : Nat) : Exec Lcd Unit :=
  if c = 0x0d then modify fun lcd => { lcd with consX := 0 } -- '\r'
  else if c = 0x0a then k70LcdScroll -- '\n'
  else if c = 0x09 then -- '\t'
    modify fun lcd =>
      { lcd with
        consX := (lcd.consX + consTabSpc * consFontW) / (consTabSpc * consFontW) *
          (consTabSpc * consFontW) }
  else if c = 0x08 then -- '\b'
    modify fun lcd =>
      { lcd with
        consX := if lcd.consX ≥ consFontW then lcd.consX - consFontW else lcd.consX }
  else if c = 0x0c then k70LcdClear -- '\f'
  else do
    rowsLoop profont c consFontH 0
    modify fun lcd => { lcd with consX := lcd.consX + consFontW }

/-- `k70LcdPutc` -/
def k70LcdPutc (profont : Nat → Nat → Nat → Bool) (c : Nat) : Exec Lcd Unit := do
  putChar profont c
  let lcd ← get
  when (lcd.consX > lcdXSize - consFontW) do
    k70LcdScroll
    modify fun lcd => { lcd with consX := 0 }

/-- The word with the number `i` in a memory of bytes. -/
def wordAt (bits : List Byte) (i : Nat) : Option (BitVec 32) :=
  match bits.drop (4 * i) with
  | b₀ :: b₁ :: b₂ :: b₃ :: _ => some (b₃ ++ b₂ ++ b₁ ++ b₀)
  | _ => none

/-- The loop of `k70LcdBlit` over `k` words from the word `i` on. -/
def blitLoop (bits : List Byte) : Nat → Nat → Exec Lcd Unit
  | 0, _ => pure ()
  | k + 1, i =>
      match wordAt bits i with
      | none => fault (.wild "buf")
      | some x => do
          setPixel i x
          blitLoop bits k (i + 1)

/-- `k70LcdBlit` -/
def k70LcdBlit (bits : List Byte) : Exec Lcd Unit := blitLoop bits pixels 0

/-! ### The cursor -/

/-- The screen is enabled, and the place of the next character is on it. -/
structure Lcd.Ready (lcd : Lcd) : Prop where
  fbSize : lcd.fbSize = pixels * lcdBpp
  consX : lcd.consX ≤ lcdXSize - consFontW
  consY : lcd.consY = lcdYSize - consFontH

/-- The two screens differ in the pixels at most. -/
structure Lcd.Same (lcd lcd' : Lcd) : Prop where
  fbSize : lcd'.fbSize = lcd.fbSize
  consX : lcd'.consX = lcd.consX
  consY : lcd'.consY = lcd.consY

variable {lcd lcd' : Lcd}

theorem Lcd.Same.refl (lcd : Lcd) :
  lcd.Same lcd
  := ⟨rfl, rfl, rfl⟩

theorem Lcd.Same.trans {lcd'' : Lcd} (h : lcd.Same lcd') (h' : lcd'.Same lcd'') :
  lcd.Same lcd''
  := ⟨h'.fbSize.trans h.fbSize, h'.consX.trans h.consX, h'.consY.trans h.consY⟩

theorem Lcd.Ready.same (h : lcd.Ready) (hs : lcd.Same lcd') :
  lcd'.Ready
  := ⟨hs.fbSize.trans h.fbSize, hs.consX ▸ h.consX, hs.consY.trans h.consY⟩

theorem setPixel_returns {i : Nat} (h : i < pixels) (x : BitVec 32) :
  Returns lcd (setPixel i x) fun _ lcd' => lcd.Same lcd'
  := by
  rw [setPixel, if_pos h]
  exact ⟨(), _, rfl, rfl, rfl, rfl⟩

theorem fill_returns {i n : Nat} (h : i + n ≤ pixels) (x : BitVec 32) :
  Returns lcd (fill i n x) fun _ lcd' => lcd.Same lcd'
  := by
  rw [fill, if_pos h]
  exact ⟨(), _, rfl, rfl, rfl, rfl⟩

theorem moveToStart_returns {i n : Nat} (h : i + n ≤ pixels) :
  Returns lcd (moveToStart i n) fun _ lcd' => lcd.Same lcd'
  := by
  rw [moveToStart, if_pos h]
  exact ⟨(), _, rfl, rfl, rfl, rfl⟩

theorem clearFrom_returns (bg : BitVec 32) {i n j : Nat} (h : i + n ≤ pixels) (hj : j ≤ pixels) :
  Returns lcd (clearFrom bg i n j) fun _ lcd' => lcd.Same lcd'
  := by
  rw [clearFrom]
  split
  · apply fill_returns h
  · apply fill_returns
    omega

/-- Clearing the screen puts the cursor at the start of the last line. -/
theorem k70LcdClear_returns (h : lcd.fbSize = pixels * lcdBpp) :
  Returns lcd k70LcdClear fun _ lcd' => lcd'.Ready ∧ consFontW ∣ lcd'.consX
  := by
  refine .get (.bind (clearFrom_returns _ ?_ (Nat.zero_le _)) ?_)
  · rw [h]
    decide
  · rintro - lcd' hs
    exact ⟨(), _, rfl, ⟨hs.fbSize.trans h, Nat.zero_le _, rfl⟩, Nat.dvd_zero _⟩

/-- The screen is ready once it is enabled. -/
theorem k70LcdEnable_returns (lcd : Lcd) :
  Returns lcd k70LcdEnable fun _ lcd' => lcd'.Ready ∧ consFontW ∣ lcd'.consX
  := by
  refine .modify ?_
  rintro lcd' rfl
  apply k70LcdClear_returns rfl

/-- Scrolling stays in the frame buffer. -/
theorem k70LcdScroll_returns (h : lcd.consY = lcdYSize - consFontH) :
  Returns lcd k70LcdScroll fun _ lcd' => lcd.Same lcd'
  := by
  refine .get (.bind (moveToStart_returns ?_) ?_)
  · rw [h]
    decide
  · rintro - lcd' hs
    refine (clearFrom_returns _ ?_ ?_).mono fun _ _ hs' => hs.trans hs'
    · rw [h]
      decide
    · rw [h]
      decide

/-! ### Characters -/

variable (profont : Nat → Nat → Nat → Bool) {c : Nat}

theorem loadGlyph_apply {y x : Nat} (hc : c < profontChars) (hy : y < consFontH)
    (hx : x < consFontW) :
  loadGlyph profont c y x lcd = .done (profont c y x) lcd
  := by
  rw [loadGlyph, if_pos ⟨hc, hy, hx⟩, pure_apply]

/-- The columns of a character stay in its row. -/
theorem columnsLoop_returns {y start k x : Nat} (hc : c < profontChars) (hy : y < consFontH)
    (hx : x + k ≤ consFontW) (h : start + (x + k + lcd.consX) ≤ pixels) :
  Returns lcd (columnsLoop profont c y start k x) fun _ lcd' => lcd.Same lcd'
  := by
  induction k generalizing x lcd with
  | zero => exact .pure (.refl lcd)
  | succ k ih =>
      refine .get (.step (loadGlyph_apply profont hc hy (by omega)) ?_)
      refine .bind (setPixel_returns (by omega) _) ?_
      rintro - lcd' hs
      refine (ih (by omega) ?_).mono fun _ _ hs' => hs.trans hs'
      rw [hs.consX]
      omega

/-- The rows of a character stay on the screen. -/
theorem rowsLoop_returns {k y : Nat} (hc : c < profontChars) (hk : y + k ≤ consFontH)
    (hx : lcd.consX + consFontW ≤ lcdXSize) (hy : y + k + lcd.consY ≤ lcdYSize) :
  Returns lcd (rowsLoop profont c k y) fun _ lcd' => lcd.Same lcd'
  := by
  induction k generalizing y lcd with
  | zero => exact .pure (.refl lcd)
  | succ k ih =>
      have hrow : (y + lcd.consY) * lcdXSize + lcdXSize ≤ pixels := by
        rw [← Nat.succ_mul, pixels, Nat.mul_comm lcdXSize]
        apply Nat.mul_le_mul_right
        omega
      refine .get (.bind (columnsLoop_returns profont hc (by omega) (by omega) (by omega)) ?_)
      rintro - lcd' hs
      refine (ih (by omega) ?_ ?_).mono fun _ _ hs' => hs.trans hs'
      · rw [hs.consX]
        apply hx
      · rw [hs.consY]
        omega

/-- The cursor of `lcd'` is in a column of characters if that of `lcd` is. -/
def Lcd.KeepsColumn (lcd lcd' : Lcd) : Prop := consFontW ∣ lcd.consX → consFontW ∣ lcd'.consX

theorem Lcd.Same.keepsColumn (h : lcd.Same lcd') :
  lcd.KeepsColumn lcd'
  := by
  intro hdvd
  rw [h.consX]
  exact hdvd

/-- A character is put on the screen, and the cursor moves to the end of the line at most. -/
theorem putChar_returns (hc : c < profontChars) (h : lcd.Ready) :
  Returns lcd (putChar profont c) fun _ lcd' => lcd'.fbSize = pixels * lcdBpp ∧
    lcd'.consX ≤ lcdXSize ∧ lcd'.consY = lcdYSize - consFontH ∧ lcd.KeepsColumn lcd'
  := by
  have hx : lcd.consX + consFontW ≤ lcdXSize := by
    have := h.consX
    simp only [lcdXSize, consFontW] at this ⊢
    omega
  unfold putChar
  split
  · exact ⟨(), _, rfl, h.fbSize, Nat.zero_le _, h.consY, fun _ => Nat.dvd_zero _⟩
  split
  · refine (k70LcdScroll_returns h.consY).mono fun _ lcd' hs => ?_
    exact ⟨hs.fbSize.trans h.fbSize, by rw [hs.consX]; omega, hs.consY.trans h.consY,
      hs.keepsColumn⟩
  split
  · refine ⟨(), _, rfl, h.fbSize, ?_, h.consY, fun _ => ?_⟩
    · simp only [lcdXSize, consTabSpc, consFontW] at hx ⊢
      omega
    · apply Nat.dvd_mul_left_of_dvd
      exact Nat.dvd_mul_left consFontW consTabSpc
  split
  · refine ⟨(), _, rfl, h.fbSize, ?_, h.consY, fun hdvd => ?_⟩
    · simp only
      split
      · omega
      · omega
    · simp only
      split
      · exact Nat.dvd_sub hdvd (Nat.dvd_refl _)
      · exact hdvd
  split
  · refine (k70LcdClear_returns h.fbSize).mono fun _ lcd' h' => ?_
    exact ⟨h'.1.fbSize, Nat.le_trans h'.1.consX (Nat.sub_le _ _), h'.1.consY, fun _ => h'.2⟩
  · refine .bind (rowsLoop_returns profont hc (Nat.le_of_eq (Nat.zero_add _)) hx ?_) ?_
    · rw [h.consY]
      decide
    · rintro - lcd' hs
      have hx' : lcd'.consX + consFontW ≤ lcdXSize := by rwa [hs.consX]
      refine ⟨(), _, rfl, hs.fbSize.trans h.fbSize, hx', hs.consY.trans h.consY, fun hdvd => ?_⟩
      exact Nat.dvd_add (hs.keepsColumn hdvd) (Nat.dvd_refl _)

/-- A character is put on the screen, and the cursor stays on it. -/
theorem k70LcdPutc_returns (hc : c < profontChars) (h : lcd.Ready) :
  Returns lcd (k70LcdPutc profont c) fun _ lcd' => lcd'.Ready ∧ lcd.KeepsColumn lcd'
  := by
  refine .bind (putChar_returns profont hc h) ?_
  rintro - lcd' ⟨hfb, hx, hy, hcol⟩
  refine .get ?_
  by_cases hend : lcd'.consX > lcdXSize - consFontW
  · rw [when_pos hend]
    refine .bind (k70LcdScroll_returns hy) ?_
    rintro - lcd'' hs
    exact ⟨(), _, rfl, ⟨hs.fbSize.trans hfb, Nat.zero_le _, hs.consY.trans hy⟩,
      fun _ => Nat.dvd_zero _⟩
  · rw [when_neg hend]
    exact .pure ⟨⟨hfb, Nat.le_of_not_gt hend, hy⟩, hcol⟩

/-! ### Screens -/

theorem wordAt_isSome {bits : List Byte} {i : Nat} (h : 4 * (i + 1) ≤ bits.length) :
  (wordAt bits i).isSome
  := by
  have hlen : 4 ≤ (bits.drop (4 * i)).length := by
    rw [List.length_drop]
    omega
  rw [wordAt]
  match hb : bits.drop (4 * i), hlen with
  | _ :: _ :: _ :: _ :: _, _ => rfl

theorem wordAt_eq_none {bits : List Byte} {i : Nat} (h : bits.length < 4 * (i + 1)) :
  wordAt bits i = none
  := by
  have hlen : (bits.drop (4 * i)).length < 4 := by
    rw [List.length_drop]
    omega
  rw [wordAt]
  split
  · rename_i hb
    rw [hb] at hlen
    simp only [List.length_cons] at hlen
    omega
  · rfl

/-- A buffer that is long enough is copied to the frame buffer. -/
theorem blitLoop_returns {bits : List Byte} {k i : Nat} (hi : i + k ≤ pixels)
    (h : 4 * (i + k) ≤ bits.length) :
  Returns lcd (blitLoop bits k i) fun _ lcd' => lcd.Same lcd'
  := by
  induction k generalizing i lcd with
  | zero => exact .pure (.refl lcd)
  | succ k ih =>
      have hword : (wordAt bits i).isSome := wordAt_isSome (by omega)
      obtain ⟨x, hx⟩ := Option.isSome_iff_exists.mp hword
      rw [blitLoop, hx]
      refine .bind (setPixel_returns (by omega) x) ?_
      rintro - lcd' hs
      exact (ih (by omega) (by omega)).mono fun _ _ hs' => hs.trans hs'

/-- In a buffer that is too short the copy leaves the buffer. -/
theorem blitLoop_stops {bits : List Byte} {k i : Nat} (hi : i + k ≤ pixels)
    (h : bits.length < 4 * (i + k)) (hk : k ≠ 0) :
  Stops lcd (blitLoop bits k i) (.wild "buf") fun _ => True
  := by
  induction k generalizing i lcd with
  | zero => contradiction
  | succ k ih =>
      rw [blitLoop]
      cases hx : wordAt bits i with
      | none => exact ⟨lcd, rfl, trivial⟩
      | some x =>
          have hlen : 4 * (i + 1) ≤ bits.length := by
            by_contra hlt
            rw [wordAt_eq_none (Nat.lt_of_not_le hlt)] at hx
            cases hx
          refine .bind (setPixel_returns (by omega) x) ?_
          rintro - lcd' -
          exact ih (by omega) (by omega) (by omega)

/-- The size of the frame buffer in bytes. -/
theorem fbSize_eq : pixels * lcdBpp = 522240 := by decide

theorem k70LcdBlit_returns {bits : List Byte} (h : 522240 ≤ bits.length) :
  Returns lcd (k70LcdBlit bits) fun _ lcd' => lcd.Same lcd'
  := blitLoop_returns (Nat.le_of_eq (Nat.zero_add _)) (by rw [Nat.zero_add]; exact h)

theorem k70LcdBlit_stops {bits : List Byte} (h : bits.length < 522240) :
  Stops lcd (k70LcdBlit bits) (.wild "buf") fun _ => True
  := blitLoop_stops (Nat.le_of_eq (Nat.zero_add _)) (by rw [Nat.zero_add]; exact h) (by decide)

end Dev
