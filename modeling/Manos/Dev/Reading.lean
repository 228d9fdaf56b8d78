import Manos.Dev.Listing
import Manos.Dev.Resolution
import Manos.Fmt.Bounds
import Mathlib.Data.Set.Card

/-!
# What a read stores

A read fills a part of the caller's buffer from its start on.  For each device the read function
returns, and what it fills is within the size; only a timer fills more, when it is read with a
size that is too small for the rest of the time stamp.
-/

namespace Dev

open Exec

variable {pf : Platform} {v : Node pf} {s : Reading} {n : ℕ}

/-- Exactly the first `n` bytes of the buffer were stored. -/
def Filled (n : ℕ) (s : Reading) : Prop := ∀ j, (s.buf j).isSome ↔ j < n

/-- Storing bytes from a place in the filled part on. -/
theorem Filled.put {i : ℕ} (h : Filled n s) (hi : i ≤ n) (l : List Byte) :
  Filled (max n (i + l.length)) (s.put i l)
  := by
  intro j
  simp only [Reading.put]
  split
  · rename_i hj
    rw [List.getElem?_eq_getElem (by omega)]
    simp only [Option.isSome_some, true_iff]
    omega
  · rw [h j]
    omega

theorem copy_returns {i : ℕ} (l : List Byte) (h : Filled n s) (hi : i ≤ n) :
  Returns s (copy i l) fun _ s' => Filled (max n (i + l.length)) s' ∧ s'.portal = s.portal
  := ⟨(), s.put i l, copy_eq i l s, h.put hi l, rfl⟩

/-- Storing bytes at the start of the buffer. -/
theorem copy_start (l : List Byte) (h : Filled 0 s) :
  Returns s (copy 0 l) fun _ s' => Filled l.length s' ∧ s'.portal = s.portal
  := by
  have hcopy := copy_returns l h (Nat.le_refl 0)
  rwa [Nat.zero_add, Nat.zero_max] at hcopy

theorem store_start (b : Byte) (h : Filled 0 s) :
  Returns s (store 0 b) fun _ s' => Filled 1 s' ∧ s'.portal = s.portal
  := by
  have hcopy := copy_start [b] h
  apply hcopy

/-- The offset of the portal has nothing to do with the buffer. -/
theorem addOffset_returns (k : ℕ) (h : Filled n s) :
  Returns s (addOffset k) fun _ s' => Filled n s'
  := ⟨(), _, rfl, h⟩

/-! ### Directories -/

/-- What is stored by a read of `size` bytes that returns `r`. -/
def Good (isDir : Bool) (size : ℕ) (r : ℤ) (s : Reading) : Prop :=
  ∃ n, Filled n s ∧ n ≤ size ∧ (isDir = false → 0 ≤ r → r = n)

/-- A read that stores nothing and returns zero or an error. -/
theorem Good.nothing {isDir : Bool} {size : ℕ} {r : ℤ} (h : Filled 0 s) (hr : r ≤ 0) :
  Good isDir size r s
  := by
  refine ⟨0, h, Nat.zero_le _, fun _ hr' => ?_⟩
  omega

/-- A read of a directory stores no more than the size. -/
theorem readStaticNS_dir (hs : At s.portal v) (hv : v.isDir = true) (h : Filled 0 s)
    (size offset : ℕ) :
  Returns s (readStaticNS pf (v.device.sns pf) size offset) (Good true size)
  := by
  by_cases hsize : size = 0
  · rw [readStaticNS, if_pos hsize]
    exact .pure (.nothing h (Int.le_refl 0))
  have htree := staticTree_entries pf v.device
  refine ⟨_, _, readStaticNS_children htree.toOrdered v.mem hv (htree.hasChild v.mem hv) hs.crumb
    hsize offset, _, h.put (Nat.le_refl 0) _, ?_, nofun⟩
  rw [Nat.zero_add, Nat.zero_max]
  apply length_namesOf_listed

/-- A read function that leaves directories to `readStaticNS` and reads files by `f`. -/
theorem readFile_returns {d : Device} {size : ℕ} {small : Prop} [Decidable small]
    {f : Reading → Exec Reading ℤ} (offset : ℕ) (hs : At s.portal v) (hd : v.device = d)
    (h : Filled 0 s) (hf : v.isDir = false → ¬ small → Returns s (f s) (Good false size)) :
  Returns s (if small then pure 0 else get >>= fun s =>
    if s.portal.crumb.isDir = true then readStaticNS pf (d.sns pf) size offset
    else f s) (Good v.isDir size)
  := by
  by_cases hsmall : small
  · rw [if_pos hsmall]
    exact .pure (.nothing h (Int.le_refl 0))
  rw [if_neg hsmall]
  refine .get ?_
  rw [hs.isDir]
  cases hv : v.isDir with
  | true =>
      rw [if_pos rfl, ← hd]
      apply readStaticNS_dir hs hv h
  | false =>
      rw [if_neg Bool.false_ne_true]
      apply hf hv hsmall

/-! ### Interrupt counters -/

/-- The text for a counter. -/
def counterPieces (name : Name) (i : BitVec 32) : List Fmt.Piece :=
  [.string false 0 name, .char 0x3a, .char 9, .char 9, .char 9, .number false 0 false i, .char 0xa]

theorem consists_intMapFmt {name : Name} (h : 0 ∉ name) (i : BitVec 32) :
  Fmt.Consists (cstr intMapFmt) [.string (name ++ [0]), .number i] (counterPieces name i)
  := by
  have hfmt : cstr intMapFmt =
      [0x25, 0x73, 0x3a, 9, 9, 9, 0x25, 0x6c, 0x6c, 0x64, 0xa] := by decide
  have hname : cstr (name ++ [0]) = name := cstr_append_zero h
  have hend : Fmt.Consists [0x25, 0x6c, 0x6c, 0x64, 0xa] [.number i]
      [.number false 0 false i, .char 0xa] :=
    .number (by decide) (by decide) (.char (by decide) .done)
  have htabs : Fmt.Consists [0x3a, 9, 9, 9, 0x25, 0x6c, 0x6c, 0x64, 0xa] [.number i]
      [.char 0x3a, .char 9, .char 9, .char 9, .number false 0 false i, .char 0xa] :=
    .char (by decide) (.char (by decide) (.char (by decide) (.char (by decide) hend)))
  have hall : Fmt.Consists (0x25 :: [0x73, 0x3a, 9, 9, 9, 0x25, 0x6c, 0x6c, 0x64, 0xa])
      [.string (name ++ [0]), .number i]
      (.string false 0 (cstr (name ++ [0])) :: [.char 0x3a, .char 9, .char 9, .char 9,
        .number false 0 false i, .char 0xa]) :=
    .string (by decide) (by decide) htabs
  rw [hname] at hall
  rw [hfmt]
  apply hall

/-- A text for a counter has at most fifteen characters after the name. -/
theorem textLength_counterPieces (name : Name) (i : BitVec 32) :
  Fmt.textLength (counterPieces name i) ≤ name.length + 15
  := by
  have hdigits := Fmt.digitCount_le false i
  simp only [counterPieces, Fmt.textLength, List.map_cons, List.map_nil, List.sum_cons,
    List.sum_nil, Fmt.Piece.length, Nat.max_eq_left (Nat.zero_le _)]
  omega

/-- The text for a counter is formatted where there is space for it. -/
theorem fmtCounter_returns {name : Name} (h : 0 ∉ name) (c : ℕ → Byte) (counter : BitVec 64)
    {n : ℕ} (hn : n < 2 ^ 32) (hlen : name.length + 15 < n) :
  ∃ nbytes q, fmtCounter c n name counter = .done nbytes q ∧ nbytes ≤ name.length + 15
  := by
  have hconsists := consists_intMapFmt h (counter.setWidth 32)
  have hlen' := textLength_counterPieces name (counter.setWidth 32)
  have hshort : Fmt.Short n (counterPieces name (counter.setWidth 32)) := by
    refine ⟨by omega, ?_⟩
    intro q hq
    simp only [counterPieces, List.mem_cons, List.not_mem_nil, or_false] at hq
    rcases hq with rfl | rfl | rfl | rfl | rfl | rfl | rfl <;> simp [Fmt.Piece.Fits]
  obtain ⟨nbytes, q, hrun, hbytes, -⟩ := show Returns (Fmt.start c n _) _ _ from
    Fmt.returns_of_short hn hconsists (Nat.lt_succ_self _) hshort
  refine ⟨nbytes, q, hrun, ?_⟩
  omega

/-- The loop over the counters does not fill the array. -/
theorem interruptsLoop_returns {size : ℕ} (hsize : size < 2 ^ 32)
    {l : List (Name × BitVec 64)} (h : ∀ x ∈ l, 0 ∉ x.1) (buf : ℕ → Byte) (bytes : ℕ)
    (hlen : bytes + (l.map fun x => x.1.length + 15).sum < size) :
  Returns s (interruptsLoop size l buf bytes) fun x s' => x.2 < size ∧ s' = s
  := by
  induction l generalizing buf bytes with
  | nil =>
      refine .pure ⟨?_, rfl⟩
      simpa using hlen
  | cons x l ih =>
      obtain ⟨name, counter⟩ := x
      rw [List.map_cons, List.sum_cons] at hlen
      obtain ⟨nbytes, q, hrun, hbytes⟩ :=
        fmtCounter_returns (h _ List.mem_cons_self) (fun j => buf (bytes + j)) counter
          (n := size - bytes) (by omega) (by omega)
      rw [interruptsLoop, hrun]
      simp only
      split
      · apply ih
        · intro y hy
          apply h y (List.mem_cons_of_mem _ hy)
        · omega
      · refine .pure ⟨?_, rfl⟩
        simp only
        omega

theorem readInterrupts_returns (hw : Hardware) (buf : ℕ → Byte) :
  Returns s (readInterrupts hw buf intMapSize) fun _ s' => s' = s
  := by
  have hzero : ∀ name ∈ [text "SVC", text "TIMER", text "PDB", text "SYSTICK", text "PENDSV"],
      0 ∉ name := by decide
  have hnames : ∀ x ∈ intMap hw, 0 ∉ x.1 := fun x hx =>
    hzero x.1 (List.mem_map_of_mem (f := Prod.fst) hx)
  have hlen : 0 + ((intMap hw).map fun x => x.1.length + 15).sum < intMapSize := by
    simp only [intMap, List.map_cons, List.map_nil]
    decide
  refine .bind (interruptsLoop_returns (by decide) hnames buf 0 hlen) ?_
  rintro ⟨buf', bytes⟩ s' ⟨hbytes, rfl⟩
  simp only
  rw [if_pos (Nat.lt_succ_of_lt hbytes)]
  exact .pure rfl

/-! ### Files -/

theorem toInt_of_nonneg {w : ℕ} (x : BitVec w) (h : 0 ≤ x.toInt) :
  x.toInt = x.toNat
  := by
  rw [BitVec.toInt_eq_toNat_cond] at h ⊢
  have := x.isLt
  split
  · rfl
  · rename_i hge
    rw [if_neg hge] at h
    omega

/-- A count that is returned as a `ptrdiff_t` is right unless it is negative. -/
theorem ptrdiff_of_nonneg {n : ℕ} (hn : n < 2 ^ pf.width) (h : 0 ≤ ptrdiff pf n) :
  ptrdiff pf n = n
  := by
  rw [ptrdiff, toInt_of_nonneg _ h, BitVec.toNat_ofNat, Nat.mod_eq_of_lt hn]

/-- A read that fills `n` bytes and returns their number. -/
theorem Good.filled {isDir : Bool} {size : ℕ} {s' : Reading} (h : Filled n s') (hle : n ≤ size)
    (hsize : size < 2 ^ pf.width) :
  Good isDir size (ptrdiff pf n) s'
  := ⟨n, h, hle, fun _ hr => ptrdiff_of_nonneg (Nat.lt_of_le_of_lt hle hsize) hr⟩

/-- The text that a field `contents` points to -/
def Contents.text? : Contents → Option Name
  | text t => some t
  | _ => none

/-- The place of the uart that a field `contents` points to -/
def Contents.uart? : Contents → Option ℕ
  | uart i => some i
  | _ => none

theorem Contents.of_text? {c : Contents} {t : Name} (h : c.text? = some t) :
  c = .text t
  := by
  cases c with
  | text t' =>
      cases h
      rfl
  | _ => cases h

theorem Contents.of_uart? {c : Contents} {i : ℕ} (h : c.uart? = some i) :
  c = .uart i
  := by
  cases c with
  | uart i' =>
      cases h
      rfl
  | _ => cases h

/-- The files of the root device have their contents. -/
theorem rootSNS_contents {e : StaticNS} (he : e ∈ rootSNS) (hdir : e.crumb.isDir = false)
    (hm : e.crumb.isMount = false) :
  ∃ t, e.contents = .text t ∧ e.length = t.length
  := by
  have hall : ∀ e ∈ rootSNS, e.crumb.isDir = false → e.crumb.isMount = false →
      e.contents.text?.map List.length = some e.length := by
    decide
  obtain ⟨t, ht, hlen⟩ := Option.map_eq_some_iff.mp (hall e he hdir hm)
  exact ⟨t, Contents.of_text? ht, hlen.symm⟩

/-- A file of the root device is read. -/
theorem readRoot_file (hs : At s.portal v) (hroot : v.device = .root) (hv : v.isDir = false)
    (hm : v.isMount = false) (h : Filled 0 s) {size : ℕ} (hsize : size < 2 ^ pf.width)
    (offset : ℕ) :
  Returns s (readStaticNS pf (v.device.sns pf) size offset) (Good v.isDir size)
  := by
  rw [readStaticNS]
  by_cases h0 : size = 0
  · rw [if_pos h0]
    exact .pure (.nothing h (Int.le_refl 0))
  rw [if_neg h0]
  have hent : entryAt (v.device.sns pf) s.portal.crumb.selfIdx s = .done v.entry s := by
    rw [hs.crumb, entryAt_sns]
  have hdir : ¬ v.entry.crumb.isDir = true := by
    have := hv
    simpa [Node.isDir] using this
  have hmem : v.entry ∈ rootSNS := by
    have := v.mem
    rwa [hroot] at this
  obtain ⟨t, ht, hlen⟩ := rootSNS_contents hmem hv hm
  refine .get (.step hent ?_)
  rw [if_neg hdir]
  by_cases hempty : v.entry.length = 0
  · rw [if_pos hempty]
    exact .pure (.nothing h (Int.le_refl 0))
  rw [if_neg hempty]
  have hle : (if size > v.entry.length then v.entry.length else size) ≤ t.length + 1 := by
    split
    · omega
    · omega
  simp only
  generalize hbytes : (if size > v.entry.length then v.entry.length else size) = bytes at hle
  have htake : v.entry.contents.take bytes s = .done ((t ++ [0]).take bytes) s := by
    rw [ht]
    apply congrFun (if_pos hle) s
  refine .step htake (.bind (copy_start _ h) ?_)
  rintro - s' ⟨hf, -⟩
  refine .bind (addOffset_returns bytes hf) ?_
  rintro - s'' hf'
  have hlen' : ((t ++ [0]).take bytes).length = bytes := by
    rw [List.length_take, List.length_append, List.length_singleton]
    omega
  rw [hlen'] at hf'
  have hbs : bytes ≤ size := by
    rw [← hbytes]
    split
    · omega
    · omega
  exact .pure (.filled hf' hbs hsize)

/-- A byte is stored and returned as the count. -/
theorem store_one {size : ℕ} (hsize : size ≠ 0) (h : Filled 0 s) (b : Byte) :
  Returns s (store 0 b >>= fun _ => addOffset 1 >>= fun _ => pure 1) (Good false size)
  := by
  refine .bind (store_start b h) ?_
  rintro - s' ⟨hf, -⟩
  refine .bind (addOffset_returns 1 hf) ?_
  intro _ s'' hf'
  exact .pure ⟨1, hf', Nat.pos_of_ne_zero hsize, fun _ _ => rfl⟩

theorem readLed_returns (hs : At s.portal v) (hd : v.device = .led) (h : Filled 0 s)
    (hw : Hardware) (size offset : ℕ) :
  Returns s (readLed pf hw size offset) (Good v.isDir size)
  := by
  rw [readLed]
  refine readFile_returns offset hs hd h fun _ hsize => ?_
  split
  · exact .pure (.nothing h (Int.le_refl 0))
  · simp only
    split
    · apply store_one hsize h
    · exact .pure (.nothing h (by decide))

theorem readSwpb_returns (hs : At s.portal v) (hd : v.device = .swpb) (h : Filled 0 s)
    (hw : Hardware) (size offset : ℕ) :
  Returns s (readSwpb pf hw size offset) (Good v.isDir size)
  := by
  rw [readSwpb]
  refine readFile_returns offset hs hd h fun _ hsize => ?_
  simp only
  generalize (if s.portal.crumb.selfIdx = fidOne ∨ s.portal.crumb.selfIdx = fidTwo then
    s.portal.crumb.selfIdx + fidTwo else s.portal.crumb.selfIdx) = fid
  split
  · apply store_one hsize h
  · exact .pure (.nothing h (by decide))

theorem readLcd_returns (hs : At s.portal v) (hd : v.device = .lcd) (h : Filled 0 s)
    (size offset : ℕ) :
  Returns s (readLcd pf size offset) (Good v.isDir size)
  := by
  rw [readLcd]
  exact readFile_returns offset hs hd h fun _ _ => .pure (.nothing h (by decide))

theorem length_bytesOf (n : ℕ) {w : ℕ} (x : BitVec w) :
  (bytesOf n x).length = n
  := by
  rw [bytesOf, List.length_map, List.length_range]

theorem readAdc_returns (hs : At s.portal v) (hd : v.device = .adc) (h : Filled 0 s)
    (hw : Hardware) (size offset : ℕ) :
  Returns s (readAdc pf hw size offset) (Good v.isDir size)
  := by
  rw [readAdc]
  refine readFile_returns offset hs hd h fun _ hsize => ?_
  simp only
  split
  · refine .bind (copy_start _ h) ?_
    rintro - s' ⟨hf, -⟩
    rw [length_bytesOf] at hf
    refine .bind (addOffset_returns 4 hf) ?_
    intro _ s'' hf'
    exact .pure ⟨4, hf', by omega, fun _ _ => rfl⟩
  · exact .pure (.nothing h (by decide))

/-- The loop of `readUart` stores every byte. -/
theorem getcLoop_returns (getc : ℕ → Byte) (k : ℕ) (h : Filled n s) :
  Returns s (getcLoop getc k n) fun _ s' => Filled (n + k) s'
  := by
  induction k generalizing n s with
  | zero => exact .pure h
  | succ k ih =>
      have hstore := copy_returns [getc n] h (Nat.le_refl n)
      rw [List.length_singleton, Nat.max_eq_right (Nat.le_succ n)] at hstore
      refine .bind hstore ?_
      rintro - s' ⟨hf, -⟩
      have hloop := ih hf
      rwa [Nat.succ_add] at hloop

/-- The files of the uart device belong to uarts. -/
theorem uartSNS_contents {e : StaticNS} (he : e ∈ uartSNS pf) (hdir : e.crumb.isDir = false) :
  ∃ i uart, e.contents = .uart i ∧ (hotpluggedUarts pf)[i]? = some uart
  := by
  have hall : ∀ e ∈ uartSNS pf, e.crumb.isDir = false →
      (e.contents.uart?.bind fun i => (hotpluggedUarts pf)[i]?).isSome = true := by
    cases pf <;> decide
  obtain ⟨uart, huart⟩ := Option.isSome_iff_exists.mp (hall e he hdir)
  obtain ⟨i, hi, huart⟩ := Option.bind_eq_some_iff.mp huart
  exact ⟨i, uart, Contents.of_uart? hi, huart⟩

theorem readUart_returns (hs : At s.portal v) (hd : v.device = .uart) (h : Filled 0 s)
    (hw : Hardware) {size : ℕ} (hsize : size < 2 ^ pf.width) (offset : ℕ) :
  Returns s (readUart pf hw size offset) (Good v.isDir size)
  := by
  rw [readUart]
  refine readFile_returns offset hs hd h fun hv _ => ?_
  have hself := Node.info_self hs.crumb s
  have hmem := v.mem
  rw [hd] at hself hmem
  obtain ⟨i, uart, hi, huart⟩ := uartSNS_contents hmem hv
  refine .step hself ?_
  simp only [mkNodeInfo, hi, huart]
  split
  · split
    · exact .pure (.nothing h (by decide))
    · refine .bind (getcLoop_returns (hw.getc i) size h) ?_
      intro _ s' hf
      rw [Nat.zero_add] at hf
      exact .pure (.filled hf (Nat.le_refl _) hsize)
  · exact .pure (.nothing h (by decide))

/-! ### Timers -/

/-- The time stamp of the timer at the node, if its file can be read. -/
def readable (v : Node pf) : Bool :=
  match v.entry.contents with
  | .timer i => (hotpluggedTimers pf)[i]?.any fun timer => timer.name ≠ "k70PDB0"
  | _ => false

/-- The rest of the time stamp is longer than the size. -/
def overruns (v : Node pf) (size offset : ℕ) : Bool :=
  readable v && decide (0 < size ∧ offset < 8 ∧ size < 8 - offset)

/-- The files of the timer device belong to timers. -/
theorem timerSNS_contents {e : StaticNS} (he : e ∈ timerSNS pf) (hdir : e.crumb.isDir = false) :
  ∃ i timer, e.contents = .timer i ∧ (hotpluggedTimers pf)[i]? = some timer ∧ e.length = 8
  := by
  have hall : ∀ e ∈ timerSNS pf, e.crumb.isDir = false →
      (match e.contents with
        | .timer i => (hotpluggedTimers pf)[i]?.isSome && decide (e.length = 8)
        | _ => false) = true := by
    cases pf <;> decide
  have h := hall e he hdir
  split at h
  · rename_i i hi
    obtain ⟨htimer, hlen⟩ := Bool.and_eq_true_iff.mp h
    obtain ⟨timer, htimer⟩ := Option.isSome_iff_exists.mp htimer
    exact ⟨i, timer, hi, htimer, of_decide_eq_true hlen⟩
  · contradiction

/-- Only the timer device has files that belong to timers. -/
theorem device_of_readable (h : readable v = true) :
  v.device = .timer ∧ v.isDir = false
  := by
  have hall : ∀ d, ∀ e ∈ Device.entries pf d,
      (match e.contents with
        | .timer _ => decide (d = .timer ∧ e.crumb.isDir = false)
        | _ => true) = true := by
    intro d
    cases pf <;> cases d <;> decide +kernel
  have hv := hall v.device v.entry v.mem
  rw [readable] at h
  split at h
  · rename_i i hi
    rw [hi] at hv
    apply of_decide_eq_true hv
  · contradiction

theorem ptrdiff_of_lt {n : ℕ} (hn : n < 2 ^ 31) :
  ptrdiff pf n = n
  := by
  have hpow : n < 2 ^ (pf.width - 1) := by
    cases pf with
    | k70cw => apply hn
    | nice => apply Nat.lt_trans hn (by decide)
  have hmod : n % 2 ^ pf.width = n := by
    apply Nat.mod_eq_of_lt (Nat.lt_of_lt_of_le hpow _)
    apply Nat.pow_le_pow_right Nat.two_pos (Nat.sub_le _ _)
  rw [ptrdiff, BitVec.toInt_eq_toNat_of_lt]
  · rw [BitVec.toNat_ofNat, hmod]
  · rw [BitVec.toNat_ofNat, hmod]
    cases pf with
    | k70cw => rw [Platform.width] at hpow ⊢; omega
    | nice => rw [Platform.width] at hpow ⊢; omega

/-- What a read of a timer's file stores and returns. -/
theorem readTimer_file (hs : At s.portal v) (hd : v.device = .timer) (hv : v.isDir = false)
    (h : Filled 0 s) (hw : Hardware) {size : ℕ} (hsize : size ≠ 0) (offset : ℕ) :
  Returns s (readTimer pf hw size offset) fun r s' =>
    if readable v = true ∧ offset < 8 then r = (8 - offset : ℕ) ∧ Filled (8 - offset) s'
    else r ≤ 0 ∧ Filled 0 s'
  := by
  have hself := Node.info_self hs.crumb s
  have hmem := v.mem
  rw [hd] at hself hmem
  obtain ⟨i, timer, hi, htimer, hlen⟩ := timerSNS_contents hmem hv
  have hreadable : readable v = decide (timer.name ≠ "k70PDB0") := by
    rw [readable, hi]
    simp [htimer]
  rw [readTimer, if_neg hsize]
  refine .get ?_
  rw [hs.isDir, hv, if_neg Bool.false_ne_true]
  refine .step hself ?_
  simp only [mkNodeInfo, hi, htimer, hlen]
  by_cases hname : timer.name = "k70PDB0"
  · rw [if_pos hname]
    refine .pure ?_
    rw [if_neg (by simp [hreadable, hname])]
    exact ⟨by decide, h⟩
  rw [if_neg hname]
  by_cases hoff : offset ≥ 8
  · rw [if_pos hoff]
    refine .pure ?_
    rw [if_neg (by omega)]
    exact ⟨Int.le_refl 0, h⟩
  · rw [if_neg hoff]
    refine .bind (copy_start _ h) ?_
    rintro - s' ⟨hf, -⟩
    rw [List.length_drop, length_bytesOf] at hf
    refine .pure ?_
    rw [if_pos ⟨by simp [hreadable, hname], by omega⟩]
    exact ⟨ptrdiff_of_lt (by omega), hf⟩

theorem readTimer_returns (hs : At s.portal v) (hd : v.device = .timer) (h : Filled 0 s)
    (hw : Hardware) {size offset : ℕ} (hok : overruns v size offset = false) :
  Returns s (readTimer pf hw size offset) (Good v.isDir size)
  := by
  by_cases hfile : v.isDir = false ∧ size ≠ 0
  · obtain ⟨hv, hsize⟩ := hfile
    refine (readTimer_file hs hd hv h hw hsize offset).mono ?_
    intro r s' hr
    split at hr
    · rename_i hstamp
      have hle : 8 - offset ≤ size := by
        rw [overruns, hstamp.1, Bool.true_and] at hok
        have := of_decide_eq_false hok
        omega
      exact ⟨8 - offset, hr.2, hle, fun _ _ => hr.1⟩
    · exact .nothing hr.2 hr.1
  · rw [readTimer]
    exact readFile_returns offset hs hd h fun hv hsize => absurd ⟨hv, hsize⟩ hfile

/-! ### `devdev` -/

theorem length_bytes (d : Date) :
  d.bytes.length = sizeofDate
  := by
  simp [Date.bytes, length_bytesOf, sizeofDate]

theorem readDate_returns (hw : Hardware) (h : Filled 0 s) :
  Returns s (readDate hw) fun _ s' => Filled sizeofDate s'
  := by
  obtain ⟨date, hdate⟩ := Option.isSome_iff_exists.mp (secondsToDate_isSome (hw.dateMsecs / 1000))
  refine .bind (copy_start _ h) ?_
  rintro - s' ⟨hf, -⟩
  rw [List.length_replicate] at hf
  rw [hdate]
  refine (copy_returns date.bytes hf (Nat.zero_le _)).mono ?_
  rintro - s'' ⟨hf', -⟩
  rw [length_bytes, Nat.zero_add, Nat.max_self] at hf'
  apply hf'

theorem readDevDev_returns (hs : At s.portal v) (hd : v.device = .dev) (h : Filled 0 s)
    (hw : Hardware) (fileInfo : ℕ → Byte) {size : ℕ} (hsize : size < 2 ^ pf.width)
    (offset : ℕ) :
  Returns s (readDevDev pf hw fileInfo size offset) (Good v.isDir size)
  := by
  rw [readDevDev]
  refine readFile_returns offset hs hd h fun hv _ => ?_
  simp only
  split
  · split
    · rename_i hge
      refine .bind (readDate_returns hw h) ?_
      intro _ s' hf
      exact .pure ⟨sizeofDate, hf, hge, fun _ _ => rfl⟩
    · exact .pure (.nothing h (Int.le_refl 0))
  · split
    · refine .bind (readInterrupts_returns hw fileInfo) ?_
      rintro ⟨info, bytesRead⟩ s' rfl
      simp only
      split
      · generalize hnew : (if bytesRead - offset > size then size else bytesRead - offset) = newSize
        refine .bind (copy_start _ h) ?_
        rintro - s'' ⟨hf, -⟩
        rw [List.length_map, List.length_range] at hf
        refine .bind (addOffset_returns newSize hf) ?_
        intro _ s₃ hf'
        have hle : newSize ≤ size := by
          rw [← hnew]
          split
          · apply Nat.le_refl
          · omega
        exact .pure (.filled hf' hle hsize)
      · exact .pure (.nothing h (Int.le_refl 0))
    · exact .pure (.nothing h (by decide))

/-! ### Every device -/

/-- A read that does not overrun stores within the size. -/
theorem read_returns (hs : At s.portal v) (hm : v.isMount = false) (h : Filled 0 s)
    (hw : Hardware) (fileInfo : ℕ → Byte) {size offset : ℕ} (hsize : size < 2 ^ pf.width)
    (hok : overruns v size offset = false) :
  Returns s (v.device.read pf hw fileInfo size offset) (Good v.isDir size)
  := by
  rw [Device.read.eq_def]
  split
  · rename_i hd
    rw [readRoot, ← hd]
    cases hv : v.isDir with
    | true => apply readStaticNS_dir hs hv h
    | false =>
        rw [← hv]
        apply readRoot_file hs hd hv hm h hsize
  · apply readLed_returns hs ‹_› h
  · apply readSwpb_returns hs ‹_› h
  · apply readUart_returns hs ‹_› h hw hsize
  · apply readLcd_returns hs ‹_› h
  · apply readAdc_returns hs ‹_› h
  · apply readTimer_returns hs ‹_› h hw hok
  · apply readDevDev_returns hs ‹_› h hw fileInfo hsize

/--
A read of `size` bytes returns, after it stored within the size; for a file, a count that is not
negative is the number of the bytes that it stored.
-/
def Respects (isDir : Bool) (size : ℕ) (o : Outcome Reading ℤ) : Prop :=
  ∃ r s, o = .done r s ∧ (∀ j, (s.buf j).isSome → j < size) ∧
    (isDir = false → 0 ≤ r → r = { j | (s.buf j).isSome }.ncard)

theorem Filled.ncard (h : Filled n s) :
  { j | (s.buf j).isSome }.ncard = n
  := by
  have hset : { j | (s.buf j).isSome } = (Finset.range n : Set ℕ) := by
    ext j
    simp [h j]
  rw [hset, Set.ncard_coe_finset, Finset.card_range]

/--
The read functions respect the caller's buffer, except that a read of a timer stores the whole
rest of the time stamp when the size is smaller and not zero.
-/
theorem read_respects_iff {p : Portal} (hp : At p v) (hm : v.isMount = false) (hw : Hardware)
    (fileInfo : ℕ → Byte) (size : BitVec pf.width) (offset : BitVec 32) :
  Respects v.isDir size.toNat
      (v.device.read pf hw fileInfo size.toNat offset.toNat ⟨p, fun _ => none⟩) ↔
    overruns v size.toNat offset.toNat = false
  := by
  have hempty : Filled 0 ⟨p, fun _ => none⟩ := by
    intro j
    simp
  constructor
  · rintro ⟨r, s, hrun, hstored, -⟩
    by_contra hover
    have hover' : overruns v size.toNat offset.toNat = true := by simpa using hover
    rw [overruns, Bool.and_eq_true, decide_eq_true_eq] at hover'
    obtain ⟨hreadable, hpos, hoff, hlt⟩ := hover'
    obtain ⟨hd, hv⟩ := device_of_readable hreadable
    have hfile := readTimer_file (s := ⟨p, fun _ => none⟩) hp hd hv hempty hw
      (Nat.ne_of_gt hpos) offset.toNat
    rw [hd] at hrun
    have hr := hfile.done hrun
    rw [if_pos ⟨hreadable, hoff⟩] at hr
    have := hstored (8 - offset.toNat - 1) ((hr.2 _).mpr (by omega))
    omega
  · intro hok
    obtain ⟨r, s, hrun, n, hn, hle, hr⟩ := read_returns (s := ⟨p, fun _ => none⟩) hp hm hempty hw
      fileInfo size.isLt hok
    refine ⟨r, s, hrun, ?_, ?_⟩
    · intro j hj
      exact Nat.lt_of_lt_of_le ((hn j).mp hj) hle
    · intro hdir hpos
      rw [hr hdir hpos, hn.ncard]

/-- Hardware whose registers are zero. -/
def quietHardware : Hardware :=
  ⟨0, 0, 0, fun _ => 0, fun _ _ => 0, fun _ => 0, 0, 0, 0, 0, 0, 0⟩

/-- The node `/bin/pwd`. -/
def pwdNode : Node .k70cw :=
  ⟨.root, ⟨text "pwd", mkStaticNSCrumb fidBin 3 crumbIsFile, 5, 0o555, .text (text "#!pwd")⟩,
    by decide⟩

/-- The node `/dev/timer/k70Timer`. -/
def timerNode : Node .k70cw :=
  ⟨.timer, timerEntry 0 ⟨"k70FTM0", "k70Timer"⟩, by decide⟩

/-- A portal at a node. -/
def portalAt (v : Node pf) : Portal := ⟨v.device.index, 0, v.entry.crumb, 0, 0⟩

theorem at_portalAt (v : Node pf) :
  At (portalAt v) v
  := ⟨rfl, rfl⟩

/-- A read of `/bin/pwd` with a small buffer. -/
theorem read_respects_iff_pwd :
  Respects false 3
    (readRoot .k70cw 3 1 ⟨portalAt pwdNode, fun _ => none⟩)
  := (read_respects_iff (at_portalAt pwdNode) (by decide) quietHardware (fun _ => 0) 3 1).mpr
    (by decide)

/-- A read of one byte of a timer stores eight bytes. -/
theorem read_timer_overruns :
  ¬ Respects timerNode.isDir 1
    (timerNode.device.read .k70cw quietHardware (fun _ => 0) 1 0
      ⟨portalAt timerNode, fun _ => none⟩)
  := by
  have hrun : ∃ s, timerNode.device.read .k70cw quietHardware (fun _ => 0) 1 0
      ⟨portalAt timerNode, fun _ => none⟩ = .done 8 s ∧ (s.buf 7).isSome = true := ⟨_, rfl, rfl⟩
  obtain ⟨s, hrun, hbuf⟩ := hrun
  rintro ⟨r, s', hrun', hstored, -⟩
  rw [hrun] at hrun'
  cases hrun'
  exact absurd (hstored 7 hbuf) (by decide)

end Dev
