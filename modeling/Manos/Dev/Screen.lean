import Manos.Dev.Lcd

/-!
# The screen of the console

Sequences of characters keep the cursor of the LCD on the screen.  Scrolling moves the rows up by
the height of a character; the rows below are cleared by bytes if the background has one color,
and else by a loop that starts too early.
-/

namespace Dev

open Exec

variable {lcd lcd' : Lcd}

/-! ### The cursor -/

/-- `k70LcdPutc` for the characters of a text, one after another -/
def k70LcdPuts (profont : Nat → Nat → Nat → Bool) : List Byte → Exec Lcd Unit
  | [] => pure ()
  | c :: cs => do
      k70LcdPutc profont c.toNat
      k70LcdPuts profont cs

/-- The cursor is at the start of the last line or a number of characters behind it. -/
structure Lcd.Placed (lcd : Lcd) : Prop where
  consY : lcd.consY = lcdYSize - consFontH
  column : consFontW ∣ lcd.consX
  consX : lcd.consX ≤ lcdXSize - consFontW

/-- A text keeps the cursor on the screen. -/
theorem k70LcdPuts_returns (profont : Nat → Nat → Nat → Bool) (cs : List Byte) (h : lcd.Ready)
    (hcol : consFontW ∣ lcd.consX) :
  Returns lcd (k70LcdPuts profont cs) fun _ lcd' => lcd'.Placed
  := by
  induction cs generalizing lcd with
  | nil => exact .pure ⟨h.consY, hcol, h.consX⟩
  | cons c cs ih =>
      refine .bind (k70LcdPutc_returns profont c.isLt h) ?_
      rintro - lcd' ⟨h', hcol'⟩
      exact ih h' (hcol' hcol)

/--
After any characters on the screen that was enabled the cursor has its place in the last line.  No
store was outside of the frame buffer, and no character outside of `profont`, where the program
would have stopped.
-/
theorem cursor_stays (profont : Nat → Nat → Nat → Bool) (cs : List Byte) (lcd : Lcd) :
  Returns lcd (k70LcdEnable >>= fun _ => k70LcdPuts profont cs) fun _ lcd' => lcd'.Placed
  := by
  refine .bind (k70LcdEnable_returns lcd) ?_
  rintro - lcd' ⟨hready, hcol⟩
  exact k70LcdPuts_returns profont cs hready hcol

/-! ### Scrolling -/

/-- The color of a pixel: its bits but for the high byte, which is not shown. -/
def pixelColor (p : BitVec 32) : BitVec 24 := p.setWidth 24

/-- The pixel in the row `y` and the column `x` -/
def Lcd.pixel (lcd : Lcd) (y x : Nat) : BitVec 32 := lcd.mmap (y * lcdXSize + x)

/-- The rows of `lcd` up to the last line are moved up by one line in `lcd'`, the last line has the
color of the background, and nothing else is changed. -/
structure Scrolled (lcd lcd' : Lcd) : Prop where
  moved : ∀ y < lcd.consY, ∀ x < lcdXSize, lcd'.pixel y x = lcd.pixel (y + consFontH) x
  cleared : ∀ y < lcdYSize, lcd.consY ≤ y → ∀ x < lcdXSize,
    pixelColor (lcd'.pixel y x) = pixelColor lcd.bg
  outside : ∀ i, pixels ≤ i → lcd'.mmap i = lcd.mmap i
  rest : lcd' = { lcd with mmap := lcd'.mmap }

/-- The bits of a pixel are those of the color that `LCD_PIXEL` gives for them. -/
theorem getLsbD_of_lcdPixel {p : BitVec 32} {r : Byte} {i : Nat} (shift : Nat)
    (h : lcdPixel p ((0xff : BitVec 32) <<< shift) shift = r) (hshift : shift + 8 ≤ 32)
    (hmod : shift % 8 = 0) (hlow : shift ≤ i) (hhigh : i < shift + 8) :
  p.getLsbD i = r.getLsbD (i % 8)
  := by
  have hff : ∀ i < 8, (0xff : BitVec 32).getLsbD i = true := by decide
  have hi : i % 8 = i - shift := by omega
  have hlt : i - shift < 8 := by omega
  have hadd : shift + (i - shift) = i := by omega
  subst h
  simp only [hi, lcdPixel, BitVec.getLsbD_setWidth, BitVec.getLsbD_ushiftRight,
    BitVec.getLsbD_and, BitVec.getLsbD_shiftLeft, hadd, hff (i - shift) hlt]
  simp [hlt, hlow, show i < 32 by omega]

/-- The bits of a background with one color are those of its byte. -/
theorem getLsbD_monochrome {bg : BitVec 32} {r : Byte} (h : monochrome bg = some r) {i : Nat}
    (hi : i < 24) :
  bg.getLsbD i = r.getLsbD (i % 8)
  := by
  simp only [monochrome] at h
  split_ifs at h with hrgb
  obtain rfl := Option.some.inj h
  by_cases h₁ : i < 8
  · exact getLsbD_of_lcdPixel 0 hrgb.2.symm (by decide) rfl (Nat.zero_le i) (by omega)
  by_cases h₂ : i < 16
  · exact getLsbD_of_lcdPixel 8 hrgb.1.symm (by decide) rfl (by omega) (by omega)
  · exact getLsbD_of_lcdPixel 16 rfl (by decide) rfl (by omega) (by omega)

/-- A word of four equal bytes. -/
theorem getLsbD_bytes (r : Byte) {i : Nat} (hi : i < 32) :
  (r ++ r ++ r ++ r).getLsbD i = r.getLsbD (i % 8)
  := by
  rw [BitVec.getLsbD_append, BitVec.getLsbD_append, BitVec.getLsbD_append]
  split_ifs
  · congr 1
    omega
  · congr 1
    omega
  · congr 1
    omega
  · congr 1
    omega

/-- A pixel that is set by bytes has the color of a background with one color. -/
theorem pixelColor_bytes {bg : BitVec 32} {r : Byte} (h : monochrome bg = some r) :
  pixelColor (r ++ r ++ r ++ r) = pixelColor bg
  := by
  ext i hi
  rw [pixelColor, pixelColor, BitVec.getElem_setWidth, BitVec.getElem_setWidth,
    getLsbD_bytes r (by omega), getLsbD_monochrome h hi]

/-- The screen after the rows are moved and the words from `start` to the end are set to `word`. -/
def Lcd.moveAndFill (lcd : Lcd) (start : Nat) (word : BitVec 32) : Lcd where
  __ := lcd
  mmap i :=
    if start ≤ i ∧ i < pixels then word
    else if i < lcd.consY * lcdXSize then lcd.mmap (consFontH * lcdXSize + i)
    else lcd.mmap i

/-- What scrolling leaves: with a background that has one color it fills the last line, and else
all words from the one whose number is a sum. -/
theorem k70LcdScroll_done (h : lcd.consY = lcdYSize - consFontH) :
  k70LcdScroll lcd = .done () (match monochrome lcd.bg with
    | some r => lcd.moveAndFill (lcd.consY * lcdXSize) (r ++ r ++ r ++ r)
    | none => lcd.moveAndFill (lcd.consY + lcdXSize) lcd.bg)
  := by
  have hmove : moveToStart (consFontH * lcdXSize) (lcd.consY * lcdXSize) lcd = .done ()
      { lcd with
        mmap := fun j =>
          if j < lcd.consY * lcdXSize then lcd.mmap (consFontH * lcdXSize + j)
          else lcd.mmap j } := by
    rw [moveToStart, if_pos (by rw [h]; decide), modify_apply]
  rw [k70LcdScroll, bind_done (get_apply lcd), bind_done hmove, clearFrom]
  cases monochrome lcd.bg with
  | some r =>
      have hfits : lcd.consY * lcdXSize + Word32.sub lcdYSize lcd.consY * lcdXSize = pixels := by
        rw [h]
        decide
      dsimp only
      rw [fillBytes, fill, if_pos (Nat.le_of_eq hfits), modify_apply, hfits]
      rfl
  | none =>
      have hfits : lcd.consY + lcdXSize + (pixels - (lcd.consY + lcdXSize)) = pixels := by
        rw [h]
        decide
      dsimp only
      rw [fill, if_pos (Nat.le_of_eq hfits), modify_apply, hfits]
      rfl

/-- The place of a pixel in a row. -/
theorem place_of_lt {i : Nat} (n : Nat) (h : i < n * lcdXSize) :
  i / lcdXSize < n ∧ i % lcdXSize < lcdXSize ∧ i / lcdXSize * lcdXSize + i % lcdXSize = i
  := by
  have hpos : 0 < lcdXSize := by decide
  refine ⟨?_, Nat.mod_lt i hpos, Nat.div_add_mod' i lcdXSize⟩
  exact (Nat.div_lt_iff_lt_mul hpos).mpr h

theorem place_lt {n y x : Nat} (hy : y < n) (hx : x < lcdXSize) :
  y * lcdXSize + x < n * lcdXSize
  := by
  have hle := Nat.mul_le_mul_right lcdXSize (Nat.succ_le_of_lt hy)
  rw [Nat.succ_mul] at hle
  omega

/-- The place of the pixel that is one line lower. -/
theorem lower_place (y x : Nat) :
  consFontH * lcdXSize + (y * lcdXSize + x) = (y + consFontH) * lcdXSize + x
  := by
  rw [Nat.add_mul]
  omega

/-- With a background of one color only the last line is filled. -/
theorem scrolled_bytes {r : Byte} (h : lcd.consY = lcdYSize - consFontH)
    (hr : monochrome lcd.bg = some r) :
  Scrolled lcd (lcd.moveAndFill (lcd.consY * lcdXSize) (r ++ r ++ r ++ r))
  := by
  have hpixels : pixels = lcdYSize * lcdXSize := Nat.mul_comm _ _
  constructor
  case moved =>
    intro y hy x hx
    have hlt := place_lt hy hx
    simp only [Lcd.pixel, Lcd.moveAndFill]
    rw [if_neg (by omega), if_pos hlt]
    exact congrArg lcd.mmap (lower_place y x)
  case cleared =>
    intro y hy hle x hx
    have hlt := place_lt hy hx
    have hge := Nat.mul_le_mul_right lcdXSize hle
    simp only [Lcd.pixel, Lcd.moveAndFill]
    rw [if_pos ⟨by omega, by omega⟩, pixelColor_bytes hr]
  case outside =>
    intro i hi
    have hle : lcd.consY * lcdXSize ≤ pixels := by
      rw [h]
      decide
    simp only [Lcd.moveAndFill]
    rw [if_neg (by omega), if_neg (by omega)]
  case rest => rfl

/-- With another background the rows are moved exactly if what is filled too early has the color
of the background already. -/
theorem scrolled_words_iff (h : lcd.consY = lcdYSize - consFontH) :
  Scrolled lcd (lcd.moveAndFill (lcd.consY + lcdXSize) lcd.bg) ↔
    ∀ i, lcd.consY + lcdXSize + consFontH * lcdXSize ≤ i → i < pixels → lcd.mmap i = lcd.bg
  := by
  have hpixels : pixels = lcdYSize * lcdXSize := Nat.mul_comm _ _
  have hrows : pixels = lcd.consY * lcdXSize + consFontH * lcdXSize := by
    rw [h]
    decide
  have hearly : lcd.consY + lcdXSize ≤ lcd.consY * lcdXSize := by
    rw [h]
    decide
  constructor
  · intro hs i hlow hhigh
    obtain ⟨hy, hx, hi⟩ := place_of_lt (i := i - consFontH * lcdXSize) lcd.consY (by omega)
    have hmoved := hs.moved _ hy _ hx
    simp only [Lcd.pixel, Lcd.moveAndFill] at hmoved
    rw [Nat.add_mul, Nat.add_right_comm, hi, if_pos ⟨by omega, by omega⟩,
      Nat.sub_add_cancel (by omega)] at hmoved
    exact hmoved.symm
  · intro hbg
    constructor
    case moved =>
      intro y hy x hx
      have hlt := place_lt hy hx
      have hlower := lower_place y x
      simp only [Lcd.pixel, Lcd.moveAndFill]
      rw [← hlower]
      by_cases hfilled : lcd.consY + lcdXSize ≤ y * lcdXSize + x
      · rw [if_pos ⟨hfilled, by omega⟩, hbg _ (by omega) (by omega)]
      · rw [if_neg (by omega), if_pos hlt]
    case cleared =>
      intro y hy hle x hx
      have hlt := place_lt hy hx
      have hge := Nat.mul_le_mul_right lcdXSize hle
      simp only [Lcd.pixel, Lcd.moveAndFill]
      rw [if_pos ⟨by omega, by omega⟩]
    case outside =>
      intro i hi
      simp only [Lcd.moveAndFill]
      rw [if_neg (by omega), if_neg (by omega)]
    case rest => rfl

/-- The background has three times the same color. -/
def Gray (bg : BitVec 32) : Prop := monochrome bg ≠ none

instance (bg : BitVec 32) : Decidable (Gray bg) := inferInstanceAs (Decidable (_ ≠ _))

/--
Scrolling is exact if the background is gray, or if the words that the loop sets too early move
pixels of the background: all pixels from the number 6500 on have its color already.
-/
theorem k70LcdScroll_exact_iff (h : lcd.consY = lcdYSize - consFontH) :
  Returns lcd k70LcdScroll (fun _ lcd' => Scrolled lcd lcd') ↔
    Gray lcd.bg ∨ ∀ i, 6500 ≤ i → i < pixels → lcd.mmap i = lcd.bg
  := by
  have hstart : lcd.consY + lcdXSize + consFontH * lcdXSize = 6500 := by
    rw [h]
    rfl
  have hdone := k70LcdScroll_done h
  cases hr : monochrome lcd.bg with
  | some r =>
      rw [hr] at hdone
      refine iff_of_true ⟨(), _, hdone, scrolled_bytes h hr⟩ (.inl ?_)
      rw [Gray, hr]
      nofun
  | none =>
      rw [hr] at hdone
      have hgray : ¬ Gray lcd.bg := not_not.mpr hr
      rw [or_iff_right hgray, ← hstart, ← scrolled_words_iff h]
      constructor
      · intro hs
        exact hs.done hdone
      · intro hs
        exact ⟨(), _, hdone, hs⟩

/-- A screen without pixels, with a background. -/
def blank (bg : BitVec 32) : Lcd := ⟨pixels * lcdBpp, bg, 0, 0, lcdYSize - consFontH, fun _ => 0⟩

/-- With a white background the scroll is exact. -/
theorem k70LcdScroll_exact_iff_white :
  Returns (blank 0x00ffffff) k70LcdScroll fun _ lcd' => Scrolled (blank 0x00ffffff) lcd'
  := (k70LcdScroll_exact_iff rfl).mpr (.inl (by decide))

/-- On a black screen with a red background rows that were moved are red. -/
theorem k70LcdScroll_not_exact :
  ¬ ∀ lcd : Lcd, lcd.bg < 0x01000000 → lcd.consY = lcdYSize - consFontH →
    Returns lcd k70LcdScroll fun _ lcd' => Scrolled lcd lcd'
  := by
  intro hclaim
  have hred : (blank 0x00ff0000).consY = lcdYSize - consFontH := rfl
  have hdone := k70LcdScroll_done hred
  have hs := (hclaim (blank 0x00ff0000) (by decide) hred).done hdone
  have hblack := (scrolled_words_iff hred).mp hs 6500 (by decide) (by decide)
  revert hblack
  decide

end Dev
