import Manos.Dev.Reading
import Manos.Dev.Write

/-!
# What a write loads and stores

A write returns, after it loaded bytes of the caller's buffer only and stored in the variables of
its device only, exactly if the buffer fits the file.  Most files take every buffer; those with a
format of their own, the timers, the colors and the contents of the screen and the date, take less.
-/

namespace Dev

open Exec

variable {pf : Platform} {v : Node pf} {ctx : Context} {p : Portal} {m : Machine}
  {buf : List Byte} {n : ℕ}

/-- The screen and the uart of the platform are ready. -/
structure Machine.Ready (pf : Platform) (m : Machine) : Prop where
  lcd : pf = .k70cw → m.lcd.Ready
  uart : pf = .k70cw → m.uart.Ready

/-- The result of a write of `n` bytes that is right. -/
def Written (pf : Platform) (n : ℕ) (r : ℤ) (m : Machine) : Prop :=
  m.Ready pf ∧ (r = -1 ∨ 0 ≤ r ∧ r ≤ n)

/-! ### Results -/

/-- A number of bytes that is right as a `ptrdiff_t`, or an error. -/
def Counted (pf : Platform) (n : ℕ) : Prop := n < 2 ^ (pf.width - 1) ∨ n = 2 ^ pf.width - 1

instance : Decidable (Counted pf n) := inferInstanceAs (Decidable (_ ∨ _))

theorem counted_iff {k : ℕ} (hn : n < 2 ^ pf.width) (hk : k ≤ n) :
  (ptrdiff pf k = -1 ∨ 0 ≤ ptrdiff pf k ∧ ptrdiff pf k ≤ n) ↔ Counted pf k
  := by
  have hk' : k < 2 ^ pf.width := Nat.lt_of_le_of_lt hk hn
  rw [ptrdiff, Counted, BitVec.toInt_eq_toNat_cond, BitVec.toNat_ofNat, Nat.mod_eq_of_lt hk']
  cases pf with
  | k70cw =>
      rw [Platform.width] at *
      split
      · omega
      · omega
  | nice =>
      rw [Platform.width] at *
      split
      · omega
      · omega

/-- A program that is known to return `r` is right exactly if `r` is. -/
theorem returns_iff {x : Exec Machine ℤ} {r : ℤ}
    (h : Returns m x fun r' m' => r' = r ∧ m'.Ready pf) :
  Returns m x (Written pf n) ↔ r = -1 ∨ 0 ≤ r ∧ r ≤ n
  := by
  constructor
  · rintro ⟨r', m', hrun, -, hr⟩
    obtain ⟨rfl, -⟩ := h.done hrun
    apply hr
  · intro hr
    refine h.mono ?_
    rintro r' m' ⟨rfl, hm⟩
    exact ⟨hm, hr⟩

/-- A program that returns `r` at once. -/
theorem returns_pure_iff (h : m.Ready pf) {r : ℤ} :
  Returns m (pure r) (Written pf n) ↔ r = -1 ∨ 0 ≤ r ∧ r ≤ n
  := returns_iff (.pure ⟨rfl, h⟩)

theorem returns_error (h : m.Ready pf) :
  Returns m (pure (-1)) (Written pf n)
  := (returns_pure_iff h).mpr (.inl rfl)

theorem returns_zero (h : m.Ready pf) :
  Returns m (pure 0) (Written pf n)
  := (returns_pure_iff h).mpr (.inr ⟨Int.le_refl 0, Int.natCast_nonneg n⟩)

/-- A write of a file, which is preceded by checks of the size and the kind. -/
theorem writeFile_iff {f : Exec Machine ℤ} {cond : Prop} (hp : At p v) (hm : m.Ready pf)
    (h : v.isDir = false → buf ≠ [] → (Returns m f (Written pf buf.length) ↔ cond)) :
  Returns m (if buf.length = 0 then pure 0 else if p.crumb.isDir = true then pure (-1) else f)
    (Written pf buf.length) ↔ (buf = [] ∨ v.isDir = true ∨ cond)
  := by
  by_cases hbuf : buf = []
  · rw [if_pos (by rw [hbuf, List.length_nil])]
    exact iff_of_true (returns_zero hm) (.inl hbuf)
  rw [if_neg (fun h => hbuf (List.eq_nil_of_length_eq_zero h)), hp.isDir]
  cases hv : v.isDir with
  | true => exact iff_of_true (returns_error hm) (.inr (.inl rfl))
  | false =>
      rw [if_neg Bool.false_ne_true, h hv hbuf]
      simp [hbuf]

/-! ### Characters -/

theorem load_of_lt {σ : Type} {i : ℕ} (h : i < buf.length) (s : σ) :
  load buf i s = .done (buf.get ⟨i, h⟩) s
  := by
  rw [load, List.getElem?_eq_getElem h]
  rfl

/-- The loops over the buffer load its bytes only. -/
theorem putsLoop_returns {putc : ℕ → Byte → Exec Machine Unit}
    (hputc : ∀ i c m, Machine.Ready pf m → Returns m (putc i c) fun _ m' => m'.Ready pf)
    (crlf : Bool) {k i : ℕ} (hm : m.Ready pf) (hi : i + k ≤ buf.length) :
  Returns m (putsLoop putc crlf buf k i) fun _ m' => m'.Ready pf
  := by
  induction k generalizing i m with
  | zero => exact .pure hm
  | succ k ih =>
      refine .step (load_of_lt (by omega) m) ?_
      have hcr : Returns m (when (crlf = true ∧ buf.get ⟨i, by omega⟩ = 0x0a) (putc (2 * i) 0x0d))
          fun _ m' => m'.Ready pf := by
        by_cases hc : crlf = true ∧ buf.get ⟨i, by omega⟩ = 0x0a
        · rw [when_pos hc]
          apply hputc _ _ _ hm
        · rw [when_neg hc]
          exact .pure hm
      refine .bind hcr ?_
      intro _ m' hm'
      refine .bind (hputc _ _ _ hm') ?_
      intro _ m'' hm''
      exact ih hm'' (by omega)

theorem lcdPutc_returns (hpf : pf = .k70cw) (ctx : Context) (c : Byte) (hm : m.Ready pf) :
  Returns m (lcdPutc ctx c) fun _ m' => m'.Ready pf
  := by
  refine (Returns.onPart (k70LcdPutc_returns ctx.profont c.isLt (hm.lcd hpf))).mono ?_
  rintro - m' ⟨lcd, ⟨hlcd, -⟩, rfl⟩
  exact ⟨fun _ => hlcd, hm.uart⟩

theorem niceUartPutc_returns (hpf : pf = .nice) (c : Byte) (m : Machine) :
  Returns m (niceUartPutc c) fun _ m' => m'.Ready pf
  := by
  refine ⟨(), _, rfl, ?_, ?_⟩
  · rw [hpf]
    nofun
  · rw [hpf]
    nofun

theorem interruptLoop_returns {uart : K70Uart} (l : List (BitVec 32 × Byte)) (h : uart.Ready) :
  Returns uart (interruptLoop l) fun _ uart' => uart'.Ready
  := by
  induction l generalizing uart with
  | nil => exact .pure h
  | cons x l ih =>
      refine .bind (k70UartInterrupt_returns h x.1 x.2 true) ?_
      rintro - uart' ⟨h', -, -⟩
      apply ih h'

theorem uartPutc_returns (ctx : Context) (i : ℕ) (c : Byte) (hm : m.Ready pf) :
  Returns m (uartPutc pf ctx i c) fun _ m' => m'.Ready pf
  := by
  cases pf with
  | k70cw =>
      have huart : Returns m.uart (interruptLoop (ctx.interrupts i) >>= fun _ => k70UartPutc c)
          fun _ uart' => uart'.Ready := by
        refine .bind (interruptLoop_returns _ (hm.uart rfl)) ?_
        rintro - uart' h'
        refine (k70UartPutc_returns h' c).mono ?_
        rintro - uart'' ⟨h'', -⟩
        exact h''
      refine (Returns.onPart huart).mono ?_
      rintro - m' ⟨uart', h', rfl⟩
      exact ⟨hm.lcd, fun _ => h'⟩
  | nice => apply niceUartPutc_returns rfl

theorem consolePutc_returns (ctx : Context) (c : Byte) (hm : m.Ready pf) :
  Returns m (consolePutc pf ctx c) fun _ m' => m'.Ready pf
  := by
  cases pf with
  | k70cw => apply lcdPutc_returns rfl ctx c hm
  | nice => apply niceUartPutc_returns rfl

/-! ### Uarts -/

/-- The buffers that fit the files of a uart. -/
def UartFits (v : Node pf) (buf : List Byte) : Prop :=
  v.entry.length = uartDataFile → Counted pf buf.length

/-- A write of characters that returns the size. -/
theorem puts_iff {x : Exec Machine Unit} (hx : Returns m x fun _ m' => m'.Ready pf)
    (hn : buf.length < 2 ^ pf.width) :
  Returns m (x >>= fun _ => pure (ptrdiff pf buf.length)) (Written pf buf.length) ↔
    Counted pf buf.length
  := by
  have hret : Returns m (x >>= fun _ => pure (ptrdiff pf buf.length)) fun r m' =>
      r = ptrdiff pf buf.length ∧ m'.Ready pf := by
    refine .bind hx ?_
    intro _ m' hm'
    exact .pure ⟨rfl, hm'⟩
  rw [returns_iff hret, counted_iff hn (Nat.le_refl _)]

theorem hotpluggedUarts_putc {i : ℕ} {uart : Uart} (h : (hotpluggedUarts pf)[i]? = some uart) :
  uart.putc = true
  := by
  have hall : ∀ uart ∈ hotpluggedUarts pf, uart.putc = true := by
    cases pf <;> decide
  apply hall uart (List.mem_of_getElem? h)

theorem writeUart_iff (hp : At p v) (hd : v.device = .uart) (hm : m.Ready pf)
    (hn : buf.length < 2 ^ pf.width) :
  Returns m (writeUart pf ctx p buf) (Written pf buf.length) ↔
    buf = [] ∨ v.isDir = true ∨ UartFits v buf
  := by
  refine writeFile_iff hp hm fun hv _ => ?_
  have hself := Node.info_self hp.crumb m
  have hmem := v.mem
  rw [hd] at hself hmem
  obtain ⟨i, uart, hi, huart⟩ := uartSNS_contents hmem hv
  rw [Returns.step_iff hself, UartFits]
  simp only [mkNodeInfo, hi, huart, hotpluggedUarts_putc huart, Bool.not_true,
    Bool.false_eq_true, if_false]
  split
  · rename_i hdata
    rw [Returns.get_iff]
    refine (puts_iff ?_ hn).trans ⟨fun h _ => h, fun h => h hdata⟩
    exact putsLoop_returns (fun i c _ h => uartPutc_returns ctx i c h) _ hm (by omega)
  · rename_i hdata
    exact iff_of_true (returns_error hm) fun h => absurd h hdata

/-! ### The screen -/

/-- The text of a color ends in the buffer. -/
def ColorFits (pf : Platform) (buf : List Byte) : Prop :=
  ∃ color c, Strtol.strtol pf.width 0 buf = some (color, c) ∧
    (c.length = buf.length ∨ Counted pf (buf.length - c.length))

/-- The buffers that fit the files of the screen. -/
def LcdFits (v : Node pf) (buf : List Byte) : Prop :=
  pf.lcdScreen = true →
    (v.entry.crumb.selfIdx = fidFg ∨ v.entry.crumb.selfIdx = fidBg → ColorFits pf buf) ∧
    (v.entry.crumb.selfIdx = fidBlit → 522240 ≤ buf.length) ∧
    (v.entry.crumb.selfIdx = fidCons → Counted pf buf.length)

theorem writeColor_iff (hm : m.Ready pf) (hn : buf.length < 2 ^ pf.width) (fid : ℕ) :
  Returns m (writeColor pf fid buf) (Written pf buf.length) ↔ ColorFits pf buf
  := by
  rw [writeColor, ColorFits]
  cases hstr : Strtol.strtol pf.width 0 buf with
  | none =>
      refine iff_of_false Returns.not_fault ?_
      rintro ⟨color, c, h, -⟩
      cases h
  | some x =>
      obtain ⟨color, c⟩ := x
      have hlen := (Strtol.strtol_suffix hstr).length_le
      simp only [Option.some.injEq, Prod.mk.injEq]
      by_cases hzero : buf.length - c.length = 0 ∨ buf.length - c.length > buf.length
      · rw [if_pos hzero]
        refine iff_of_true (returns_error hm) ⟨color, c, ⟨rfl, rfl⟩, .inl ?_⟩
        omega
      · rw [if_neg hzero]
        have hset : Returns m (onLcd (modify fun lcd =>
            if fid = fidFg then { lcd with fg := .ofInt 32 color }
            else { lcd with bg := .ofInt 32 color }) >>= fun _ =>
              pure (ptrdiff pf (buf.length - c.length))) fun r m' =>
              r = ptrdiff pf (buf.length - c.length) ∧ m'.Ready pf := by
          refine ⟨_, _, rfl, rfl, fun hpf => ?_, hm.uart⟩
          refine (hm.lcd hpf).same ?_
          simp only
          split
          · exact ⟨rfl, rfl, rfl⟩
          · exact ⟨rfl, rfl, rfl⟩
        rw [returns_iff hset, counted_iff hn (Nat.sub_le _ _)]
        constructor
        · intro h
          exact ⟨color, c, ⟨rfl, rfl⟩, .inr h⟩
        · rintro ⟨_, _, ⟨rfl, rfl⟩, h | h⟩
          · omega
          · apply h

theorem writeClear_returns (hpf : pf = .k70cw) (hm : m.Ready pf) (hbuf : buf ≠ []) :
  Returns m (writeClear buf) (Written pf buf.length)
  := by
  have hpos := List.length_pos_iff.mpr hbuf
  refine .step (load_of_lt hpos m) ?_
  split
  · refine .bind (Returns.onPart (k70LcdClear_returns (hm.lcd hpf).fbSize)) ?_
    rintro - m' ⟨lcd, ⟨hlcd, -⟩, rfl⟩
    refine .pure ⟨⟨fun _ => hlcd, hm.uart⟩, .inr ⟨by decide, ?_⟩⟩
    omega
  · apply returns_zero hm

theorem writeBlit_iff (hpf : pf = .k70cw) (hm : m.Ready pf) :
  Returns m (onLcd (k70LcdBlit buf) >>= fun _ => get >>= fun m => pure (ptrdiff pf m.lcd.fbSize))
      (Written pf buf.length) ↔
    522240 ≤ buf.length
  := by
  rcases Nat.lt_or_ge buf.length 522240 with hlt | hge
  · refine iff_of_false (Stops.not_returns (Stops.first (Stops.onPart (k70LcdBlit_stops hlt)))) ?_
    omega
  · refine iff_of_true ?_ hge
    refine .bind (Returns.onPart (k70LcdBlit_returns hge)) ?_
    rintro - m' ⟨lcd, hs, rfl⟩
    refine .get (.pure ⟨⟨fun _ => (hm.lcd hpf).same hs, hm.uart⟩, .inr ?_⟩)
    simp only [hs.fbSize, (hm.lcd hpf).fbSize, fbSize_eq]
    rw [ptrdiff_of_lt (by decide)]
    omega

theorem lcdSNS_file {e : StaticNS} (he : e ∈ lcdSNS) (hdir : e.crumb.isDir = false) :
  e.crumb.selfIdx ∈ [fidFg, fidBg, fidClear, fidBlit, fidCons]
  := by
  revert e
  decide

theorem writeLcd_iff (hp : At p v) (hd : v.device = .lcd) (hm : m.Ready pf)
    (hn : buf.length < 2 ^ pf.width) :
  Returns m (writeLcd pf ctx p buf) (Written pf buf.length) ↔
    buf = [] ∨ v.isDir = true ∨ LcdFits v buf
  := by
  rw [writeLcd]
  cases pf with
  | nice =>
      have hscreen : Platform.nice.lcdScreen = false := rfl
      simp only [hscreen, Bool.not_false, Bool.true_or, if_true]
      refine iff_of_true ?_ (.inr (.inr ?_))
      · split
        · apply returns_zero hm
        · apply returns_error hm
      · rw [LcdFits, hscreen]
        nofun
  | k70cw =>
      have hscreen : Platform.k70cw.lcdScreen = true := rfl
      rw [hscreen, Bool.not_true, Bool.false_or]
      refine writeFile_iff hp hm fun hv hbuf => ?_
      have hself := Node.info_self hp.crumb m
      have hmem := v.mem
      rw [hd] at hself hmem
      have hfile := lcdSNS_file hmem hv
      rw [Returns.step_iff hself, LcdFits, hp.crumb]
      simp only [hscreen, forall_const]
      simp only [List.mem_cons, List.not_mem_nil, or_false] at hfile
      rcases hfile with h | h | h | h | h
      · rw [h, if_pos (.inl rfl), writeColor_iff hm hn]
        simp [fidFg, fidBg, fidBlit, fidCons]
      · rw [h, if_pos (.inr rfl), writeColor_iff hm hn]
        simp [fidFg, fidBg, fidBlit, fidCons]
      · rw [h, if_neg (by decide), if_pos rfl]
        refine iff_of_true (writeClear_returns rfl hm hbuf) ?_
        simp [fidFg, fidBg, fidBlit, fidCons, fidClear]
      · rw [h, if_neg (by decide), if_neg (by decide), if_pos rfl]
        refine (writeBlit_iff rfl hm).trans ?_
        simp [fidFg, fidBg, fidBlit, fidCons]
      · rw [h, if_neg (by decide), if_neg (by decide), if_neg (by decide), if_pos rfl]
        refine (puts_iff ?_ hn).trans ?_
        · exact putsLoop_returns (fun i c _ h => lcdPutc_returns rfl ctx c h) _ hm (by omega)
        · simp [fidFg, fidBg, fidBlit, fidCons]

/-! ### Timers -/

/-- The buffers that fit the files of a timer. -/
def TimerFits (ctx : Context) (v : Node pf) (buf : List Byte) : Prop :=
  if readable v = true then buf.length ≤ 8 else ctx.grants = true ∧ 21 ≤ buf.length

theorem writeMsecs_iff (hm : m.Ready pf) (i : ℕ) :
  Returns m (writeMsecs pf ctx i buf) (Written pf buf.length) ↔ buf.length ≤ 8
  := by
  simp only [writeMsecs]
  rcases Nat.lt_or_ge 8 buf.length with hlong | hshort
  · rw [if_pos hlong, if_neg (by omega)]
    refine iff_of_false Returns.not_fault ?_
    omega
  · rw [if_neg (Nat.not_lt.mpr hshort), if_pos (by omega)]
    refine iff_of_true ⟨_, _, rfl, ⟨hm.lcd, hm.uart⟩, .inr ?_⟩ hshort
    rw [ptrdiff_of_lt (by omega)]
    omega

theorem writeAlarm_iff (hm : m.Ready pf) (i : ℕ) :
  Returns m (writeAlarm pf ctx i buf) (Written pf buf.length) ↔
    ctx.grants = true ∧ 21 ≤ buf.length
  := by
  simp only [writeAlarm]
  generalize hn : (if buf.length > 20 then 20 else buf.length) = n
  have hn20 : n ≤ 20 := by
    rw [← hn]
    split
    · apply Nat.le_refl
    · omega
  cases hgrants : ctx.grants with
  | false =>
      refine iff_of_false Returns.not_fault ?_
      simp
  | true =>
      have hzero : 0 ∈ buf.take n ++ List.replicate (21 - n) (0 : Byte) := by
        apply List.mem_append_right
        rw [List.mem_replicate]
        exact ⟨by omega, rfl⟩
      obtain ⟨⟨z, c⟩, hstr⟩ := Option.isSome_iff_exists.mp
        (Strtol.strtol_isSome pf.width (by decide : 10 ≠ 0) hzero)
      rw [hstr]
      simp only [Bool.not_true, Bool.false_eq_true, if_false, true_and]
      refine (returns_iff (.modify fun m' h' => .pure ⟨rfl, ?_⟩)).trans ?_
      · omega
      · rw [h']
        exact ⟨hm.lcd, hm.uart⟩

theorem writeTimer_iff (hp : At p v) (hd : v.device = .timer) (hm : m.Ready pf) :
  Returns m (writeTimer pf ctx p buf) (Written pf buf.length) ↔
    buf = [] ∨ v.isDir = true ∨ TimerFits ctx v buf
  := by
  refine writeFile_iff hp hm fun hv _ => ?_
  have hself := Node.info_self hp.crumb m
  have hmem := v.mem
  rw [hd] at hself hmem
  obtain ⟨i, timer, hi, htimer, -⟩ := timerSNS_contents hmem hv
  have hreadable : readable v = decide (timer.name ≠ "k70PDB0") := by
    rw [readable, hi]
    simp [htimer]
  rw [Returns.step_iff hself, TimerFits, hreadable]
  simp only [mkNodeInfo, hi, htimer]
  by_cases hname : timer.name = "k70PDB0"
  · rw [if_pos hname, writeAlarm_iff hm]
    simp [hname]
  · rw [if_neg hname, writeMsecs_iff hm]
    simp [hname]

/-! ### `devdev` -/

/-- The date in the buffer ends in it, and can be set. -/
def DateFits (pf : Platform) (ctx : Context) (buf : List Byte) : Prop :=
  ∃ d c, dateOf pf buf = some (d, c) ∧
    (pf = .k70cw → d.month.toNat ≤ (monthsFrom d.year).length ∧
      (ctx.opens = true → 8 ≤ buf.length))

/-- The buffers that fit the files of `devdev`. -/
def DevFits (ctx : Context) (v : Node pf) (buf : List Byte) : Prop :=
  (v.entry.crumb.selfIdx = fidDate → DateFits pf ctx buf) ∧
    (v.entry.crumb.selfIdx = fidKPrint → Counted pf buf.length)

/-- The timer is set by a write of eight bytes, which always returns. -/
theorem writeTimer_timerPortal {m : Machine} (hm : m.Ready .k70cw) (ctx : Context)
    (x : BitVec 64) :
  Returns m (writeTimer .k70cw ctx timerPortal (bytesOf 8 x)) fun r m' => r = 8 ∧
    m'.Ready .k70cw
  := ⟨8, _, rfl, rfl, hm.lcd, hm.uart⟩

theorem setTimer_iff (hm : m.Ready pf) (d : Date) :
  Returns m (setTimer pf ctx d) (Written pf n) ↔
    (pf = .k70cw → d.month.toNat ≤ (monthsFrom d.year).length ∧ (ctx.opens = true → 8 ≤ n))
  := by
  rw [setTimer.eq_def]
  cases pf with
  | nice =>
      refine iff_of_true (returns_zero hm) ?_
      nofun
  | k70cw =>
      rw [← dateToSeconds_isSome_iff]
      cases hd : dateToSeconds d with
      | none =>
          refine iff_of_false Returns.not_fault ?_
          simp
      | some seconds =>
          simp only [Option.isSome_some, true_and, forall_const]
          cases hopens : ctx.opens with
          | false => exact iff_of_true (returns_error hm) nofun
          | true =>
              refine (returns_iff (writeTimer_timerPortal hm ctx _)).trans ?_
              simp only [forall_const]
              omega

theorem writeDate_iff (hm : m.Ready pf) :
  Returns m (writeDate pf ctx buf) (Written pf buf.length) ↔ DateFits pf ctx buf
  := by
  rw [writeDate, DateFits]
  cases hdate : dateOf pf buf with
  | none =>
      refine iff_of_false Returns.not_fault ?_
      rintro ⟨d, c, h, -⟩
      cases h
  | some x =>
      obtain ⟨d, c⟩ := x
      simp only
      rw [if_neg (Nat.not_lt.mpr (Nat.sub_le _ _)), setTimer_iff hm]
      constructor
      · intro h
        exact ⟨d, c, rfl, h⟩
      · rintro ⟨_, _, ⟨⟩, h⟩
        apply h

theorem writeDevDev_iff (hp : At p v) (hm : m.Ready pf) (hn : buf.length < 2 ^ pf.width) :
  Returns m (writeDevDev pf ctx p buf) (Written pf buf.length) ↔
    buf = [] ∨ v.isDir = true ∨ DevFits ctx v buf
  := by
  refine writeFile_iff hp hm fun _ _ => ?_
  rw [DevFits, hp.crumb]
  simp only
  by_cases hdate : v.entry.crumb.selfIdx = fidDate
  · rw [if_pos hdate, writeDate_iff hm, hdate]
    simp [fidDate, fidKPrint]
  rw [if_neg hdate]
  by_cases hprint : v.entry.crumb.selfIdx = fidKPrint
  · rw [if_pos hprint]
    refine (puts_iff ?_ hn).trans ?_
    · exact putsLoop_returns (fun _ c _ h => consolePutc_returns ctx c h) true hm (by omega)
    · simp [hprint, fidDate, fidKPrint]
  · rw [if_neg hprint]
    refine iff_of_true (returns_error hm) ⟨fun h => absurd h hdate, fun h => absurd h hprint⟩

/-! ### Every device -/

/-- The buffer fits the file that it is written to. -/
def Fits (pf : Platform) (ctx : Context) (v : Node pf) (buf : List Byte) : Prop :=
  buf = [] ∨ v.isDir = true ∨
    match v.device with
    | .uart => UartFits v buf
    | .lcd => LcdFits v buf
    | .timer => TimerFits ctx v buf
    | .dev => DevFits ctx v buf
    | .root | .led | .swpb | .adc => True

theorem writeLed_returns (hm : m.Ready pf) (p : Portal) (buf : List Byte) :
  Returns m (writeLed p buf) (Written pf buf.length)
  := by
  rw [writeLed]
  by_cases hbuf : buf.length = 0
  · rw [if_pos hbuf]
    apply returns_zero hm
  rw [if_neg hbuf]
  refine .step (load_of_lt (Nat.pos_of_ne_zero hbuf) m) ?_
  split
  · apply returns_zero hm
  · simp only
    split
    · refine ⟨1, _, rfl, ?_, .inr ⟨by decide, by omega⟩⟩
      split
      · exact ⟨hm.lcd, hm.uart⟩
      · exact ⟨hm.lcd, hm.uart⟩
    · apply returns_zero hm

/--
A write of `n` bytes returns, after it loaded these bytes of the caller's buffer at most and stored
in the variables of the devices, an error or a number of bytes that is at most `n`; and the screen
and the uart are ready for the next one.
-/
def WriteRespects (pf : Platform) (n : ℕ) (o : Outcome Machine ℤ) : Prop :=
  ∃ r m, o = .done r m ∧ m.Ready pf ∧ (r = -1 ∨ 0 ≤ r ∧ r ≤ n)

/--
The write functions respect the caller's buffer exactly if it fits the file that it is written to.
-/
theorem write_respects_iff (hp : At p v) (hm : m.Ready pf) (ctx : Context)
    (hn : buf.length < 2 ^ pf.width) :
  WriteRespects pf buf.length (v.device.write pf ctx p buf m) ↔ Fits pf ctx v buf
  := by
  change Returns m (v.device.write pf ctx p buf) (Written pf buf.length) ↔ _
  rw [Fits, Device.write.eq_def]
  cases hd : v.device with
  | root => exact iff_of_true (returns_error hm) (.inr (.inr trivial))
  | led => exact iff_of_true (writeLed_returns hm p buf) (.inr (.inr trivial))
  | swpb => exact iff_of_true (returns_error hm) (.inr (.inr trivial))
  | uart => apply writeUart_iff hp hd hm hn
  | lcd => apply writeLcd_iff hp hd hm hn
  | adc => exact iff_of_true (returns_error hm) (.inr (.inr trivial))
  | timer => apply writeTimer_iff hp hd hm
  | dev => apply writeDevDev_iff hp hm hn

/-- A machine whose variables are zero, with a uart that has power. -/
def quietMachine : Machine where
  psor := 0
  pcor := 0
  lcd := ⟨pixels * lcdBpp, 0, 0, 0, lcdYSize - consFontH, fun _ => 0⟩
  uart := ⟨newFifoQ 128 (some fun _ => 0), newFifoQ 128 (some fun _ => 0), 0, []⟩
  stdout := []
  console := true
  msecs := fun _ => 0
  alarms := fun _ => []

theorem quietMachine_ready (pf : Platform) :
  quietMachine.Ready pf
  := by
  obtain ⟨_, uart, hrun, hr, -⟩ := k70UartPower_returns ⟨none, none, 0, []⟩ (fun _ => 0) fun _ => 0
  cases hrun
  exact ⟨fun _ => ⟨rfl, Nat.zero_le _, rfl⟩, fun _ => hr⟩

/-- Nothing happens while something is written. -/
def quietContext : Context :=
  ⟨fun _ _ _ => false, fun _ => [], true, 0, 0, fun _ => 0, true⟩

/-- A write of eight bytes to the timer of the clock. -/
theorem write_respects_iff_eight :
  WriteRespects .k70cw 8
    (timerNode.device.write .k70cw quietContext (portalAt timerNode) (List.replicate 8 0)
      quietMachine)
  := by
  have hlen : (List.replicate 8 (0 : Byte)).length < 2 ^ Platform.k70cw.width := by decide
  have hfits : TimerFits quietContext timerNode (List.replicate 8 0) := by
    rw [TimerFits, if_pos (by decide)]
    decide
  exact (write_respects_iff (at_portalAt timerNode) (quietMachine_ready .k70cw) quietContext
    hlen).mpr (.inr (.inr hfits))

/-- A write of nine bytes to the timer of the clock stores outside `newBuf`. -/
theorem write_timer_overruns :
  ¬ WriteRespects .k70cw 9
    (timerNode.device.write .k70cw quietContext (portalAt timerNode) (List.replicate 9 0)
      quietMachine)
  := by
  rintro ⟨r, m, hrun, -⟩
  have hstop : timerNode.device.write .k70cw quietContext (portalAt timerNode)
      (List.replicate 9 0) quietMachine = .stop (.wild "newBuf") quietMachine := rfl
  rw [hstop] at hrun
  cases hrun

end Dev
