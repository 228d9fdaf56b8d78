import Manos.Dev.Namespace
import Manos.Fmt.Unlimited
import Manos.Lib.Threads

/-!
# The uarts that are hotplugged

`resetUart` links the chains of uarts that the hardware gives to one, and builds the namespace
`uartSNS` with three files for each of them.  The memory of the namespace is clear, and over an empty
text `fmtSprintf` stores nothing: the control and the status files get no names.
-/

namespace Dev

open Exec

/-! ### `resetUart` -/

/-- `MANOS_MAXNAME` -/
def maxName : ℕ := 256

/-- What `resetUart` is run with.  The uarts are named by numbers. -/
structure UartHardware where
  /-- what the functions `hotplug` of `uartHardwareTable` return -/
  hotplug : List (Option ℕ)
  /-- the memory that `uart->hw->name` points to -/
  name : ℕ → List Byte
  /-- whether the request for `uartSNS` is granted -/
  grants : Bool
  /-- the memory from the name of an entry of `uartSNS` on, before the entry is written -/
  memory : ℕ → List Byte
  size : ∀ j, maxName ≤ (memory j).length
  /-- `syskmalloc` clears what it grants -/
  clear : ∀ j, ∀ b ∈ memory j, b = 0

/-- `uart->hw->name` -/
def UartHardware.hwName (hw : UartHardware) (uart : ℕ) : Name := cstr (hw.name uart)

/-- The variables that `resetUart` sets. -/
structure UartReset where
  /-- the fields `next` of the uarts -/
  next : ℕ → Option ℕ
  hotpluggedUarts : Option ℕ
  uartSNSCount : BitVec 32
  /-- the entries of `uartSNS` that were written -/
  uartSNS : ℕ → Option StaticNS

/-- Programs of `resetUart`. -/
abbrev ResetM : Type → Type := Exec UartReset

/-- Put the chain that starts at `uart` behind the others. -/
def spliceUart (hpChain : Option ℕ) (uart : ℕ) : ResetM Unit := do
  let s ← get
  if s.hotpluggedUarts ≠ none then
    match hpChain with
    | none => fault (.null "hpChain")
    | some x => modify fun s => { s with next := Function.update s.next x (some uart) }
  else modify fun s => { s with hotpluggedUarts := some uart }

/-- The loop over the rest of a chain; the values are its last uart and the count. -/
def countChain : ℕ → ℕ → BitVec 32 → ResetM (ℕ × BitVec 32)
  | 0, _, _ => fault .endless
  | k + 1, hpChain, hpCount => do
    let s ← get
    match s.next hpChain with
    | none => pure (hpChain, hpCount)
    | some x => countChain k x (hpCount + 1)

/-- The loop over the hardware table, with the bound `k` for the chains; the value is
`hpCount`. -/
def countUarts (k : ℕ) : List (Option ℕ) → Option ℕ → BitVec 32 → ResetM (BitVec 32)
  | [], _, hpCount => pure hpCount
  | none :: table, hpChain, hpCount => countUarts k table hpChain hpCount
  | some uart :: table, hpChain, hpCount => do
    spliceUart hpChain uart
    let (hpChain, hpCount) ← countChain k uart (hpCount + 1)
    countUarts k table (some hpChain) hpCount

/-- An entry of `uartSNS` is written. -/
def putEntry (sns : ℕ) (e : StaticNS) : ResetM Unit := do
  let s ← get
  if sns < s.uartSNSCount.toNat then
    modify fun s => { s with uartSNS := Function.update s.uartSNS sns (some e) }
  else fault (.wild "uartSNS")

/-- A text is stored as the name of an entry. -/
def storeName (name : Name) : ResetM Name :=
  if name.length < maxName then pure name else fault (.wild "name")

/-- `fmtSprintf(sns->name, fmt, str)` for an entry with this memory. -/
def formatName (memory : List Byte) (fmt : Name) (str : List Byte) : ResetM Name :=
  match Fmt.fmtSprintf (fmt.length + 1) fmt
      (Fmt.start (fun i => memory.getD i 0) memory.length [.string str]) with
  | .done _ s => storeName s.text
  | .stop e _ => fault e

/-- An entry for a file of the uart `uart`. -/
def uartFile (name : Name) (s length mode uart : ℕ) : StaticNS :=
  ⟨name, ⟨crumbIsFile ||| crumbIsStatic, mkStaticNSFid 0 s⟩, length, mode, .uart uart⟩

/-- A turn of the loop that writes the files of the uarts. -/
def putUart (hw : UartHardware) (i sns uart : ℕ) : ResetM Unit := do
  let name ← storeName (hw.hwName uart)
  putEntry sns (uartFile name (i * 3 + 1) uartDataFile 0o666 uart)
  let name ← formatName (hw.memory (sns + 1)) (text "%s_ctl") (hw.name uart)
  putEntry (sns + 1) (uartFile name (i * 3 + 2) uartCtlFile 0o666 uart)
  let name ← formatName (hw.memory (sns + 2)) (text "%s_status") (hw.name uart)
  putEntry (sns + 2) (uartFile name (i * 3 + 3) uartStatusFile 0o444 uart)

/-- The loop that writes the files, with the number of the turns that are left; the value is
`sns`. -/
def putUarts (hw : UartHardware) : ℕ → ℕ → ℕ → Option ℕ → ResetM ℕ
  | 0, _, sns, _ => pure sns
  | k + 1, i, sns, uart => do
    match uart with
    | none => fault (.null "uart")
    | some uart => do
      putUart hw i sns uart
      let s ← get
      putUarts hw k (i + 1) (sns + 3) (s.next uart)

/-- The part of `resetUart` that writes the entries. -/
def buildUartSNS (hw : UartHardware) (hpCount : BitVec 32) : ResetM Unit := do
  putEntry 0 dotEntry
  let s ← get
  let sns ← putUarts hw hpCount.toNat 0 1 s.hotpluggedUarts
  putEntry sns sentinel

/-- `resetUart`, with the bound `k` for the chains -/
def resetUart (k : ℕ) (hw : UartHardware) : ResetM Unit := do
  let hpCount ← countUarts k hw.hotplug none 0
  modify fun s => { s with uartSNSCount := 2 + 3 * hpCount }
  if hw.grants = true then buildUartSNS hw hpCount
  else fault (.null "uartSNS")

/-- The variables when the kernel is booted, with these fields `next` of the uarts. -/
def UartReset.atBoot (next : ℕ → Option ℕ) : UartReset := ⟨next, none, 0, fun _ => none⟩

/-! ### Linking the chains -/

variable {hw : UartHardware} {s s' : UartReset} {k : ℕ} {l : List ℕ} {cs : List (List ℕ)}

/-- The rest of a chain is counted. -/
theorem countChain_done {x : ℕ} {c : BitVec 32} (h : Threads s.next (s.next x) l)
    (hk : l.length < k) :
  countChain k x c s = .done ((x :: l).getLast (List.cons_ne_nil x l), c + .ofNat 32 l.length) s
  := by
  induction l generalizing x k c with
  | nil =>
      obtain ⟨k, rfl⟩ := Nat.exists_eq_add_one_of_ne_zero (Nat.ne_zero_of_lt hk)
      rw [countChain, bind_done (get_apply s), show s.next x = none from h]
      simp [pure_apply]
  | cons y l ih =>
      obtain ⟨k, rfl⟩ := Nat.exists_eq_add_one_of_ne_zero (Nat.ne_zero_of_lt hk)
      rw [List.length_cons] at hk
      rw [countChain, bind_done (get_apply s), h.1]
      dsimp only
      rw [ih h.2 (by omega), List.getLast_cons (List.cons_ne_nil y l), List.length_cons,
        BitVec.add_assoc, Nat.add_comm, BitVec.ofNat_add]
      rfl

/-- The uarts `l` are linked, and `hpChain` is the last of them. -/
structure Linked (s : UartReset) (l : List ℕ) (hpChain : Option ℕ) : Prop where
  threads : Threads s.next s.hotpluggedUarts l
  last : hpChain = l.getLast?

/-- A chain is put behind the others. -/
theorem spliceUart_done {x : ℕ} {c : List ℕ} {hpChain : Option ℕ} (h : Linked s l hpChain)
    (hc : Threads s.next (some x) (x :: c)) (hnd : (l ++ x :: c).Nodup) :
  ∃ s', spliceUart hpChain x s = .done () s' ∧ Threads s'.next s'.hotpluggedUarts (l ++ x :: c)
    ∧ (∀ y, y ∉ l → s'.next y = s.next y) ∧ s'.uartSNS = s.uartSNS
  := by
  obtain ⟨hthreads, rfl⟩ := h
  rcases List.eq_nil_or_concat l with rfl | ⟨l, z, rfl⟩
  · have hnone : s.hotpluggedUarts = none := hthreads
    refine ⟨{ s with hotpluggedUarts := some x }, ?_, hc, fun _ _ => rfl, rfl⟩
    rw [spliceUart.eq_def, bind_done (get_apply s), if_neg (not_not_intro hnone)]
    rfl
  · rw [List.concat_eq_append] at hthreads hnd ⊢
    have hsome : s.hotpluggedUarts ≠ none := by
      rw [hthreads.eq_head?]
      simp
    refine ⟨{ s with next := Function.update s.next z (some x) }, ?_, ?_, ?_, rfl⟩
    · rw [spliceUart.eq_def, bind_done (get_apply s), if_pos hsome, List.getLast?_concat]
      rfl
    · apply hthreads.splice hc hnd
    · intro y hy
      apply Function.update_of_ne
      rintro rfl
      apply hy
      simp

/-- The chains are linked, one behind the other, and their uarts are counted. -/
theorem countUarts_done {hpChain : Option ℕ} {c : BitVec 32} (h : Linked s l hpChain)
    (hcs : ∀ c ∈ cs, Threads s.next c.head? c) (hnd : (l ++ cs.flatten).Nodup)
    (hk : ∀ c ∈ cs, c.length ≤ k) :
  ∃ s', countUarts k (cs.map List.head?) hpChain c s
      = .done (c + .ofNat 32 cs.flatten.length) s'
    ∧ Threads s'.next s'.hotpluggedUarts (l ++ cs.flatten) ∧ s'.uartSNS = s.uartSNS
  := by
  induction cs generalizing s l hpChain c with
  | nil =>
      refine ⟨s, ?_, ?_, rfl⟩
      · simp [countUarts, pure_apply]
      · simpa using h.threads
  | cons d cs ih =>
      rw [List.forall_mem_cons] at hcs hk
      rw [List.flatten_cons] at hnd ⊢
      cases d with
      | nil => exact ih h hcs.2 hnd hk.2
      | cons x d =>
          rw [← List.append_assoc] at hnd ⊢
          obtain ⟨hnd₁, -, hdisj⟩ := List.nodup_append.mp hnd
          obtain ⟨s₁, hsplice, hthreads, hsame, hsns⟩ := spliceUart_done h hcs.1 hnd₁
          have hx : x ∉ l := by
            intro hmem
            exact (List.nodup_append.mp hnd₁).2.2 x hmem x List.mem_cons_self rfl
          have hrest : Threads s₁.next (s₁.next x) d := by
            rw [hsame x hx]
            apply hcs.1.2.frame
            intro y hy
            apply hsame
            intro hmem
            exact (List.nodup_append.mp hnd₁).2.2 y hmem y (List.mem_cons_of_mem _ hy) rfl
          have hcount := @countChain_done s₁ k d x (c + 1) hrest hk.1
          have hlinked : Linked s₁ (l ++ x :: d) (some ((x :: d).getLast (List.cons_ne_nil x d))) := by
            refine ⟨hthreads, ?_⟩
            rw [List.getLast?_append_of_ne_nil _ (List.cons_ne_nil x d),
              List.getLast?_eq_getLast_of_ne_nil (List.cons_ne_nil x d)]
          have hcs₁ : ∀ c ∈ cs, Threads s₁.next c.head? c := by
            intro c hc
            apply (hcs.2 c hc).frame
            intro y hy
            apply hsame
            intro hmem
            exact hdisj y (List.mem_append_left _ hmem) y (List.mem_flatten.mpr ⟨c, hc, hy⟩) rfl
          obtain ⟨s', hrun, hthreads', hsns'⟩ :=
            @ih s₁ (l ++ x :: d) _ (c + 1 + .ofNat 32 d.length) hlinked hcs₁ hnd hk.2
          refine ⟨s', ?_, hthreads', hsns'.trans hsns⟩
          rw [List.map_cons, List.head?_cons, countUarts, bind_done hsplice, bind_done hcount]
          dsimp only
          rw [hrun, List.length_append, List.length_cons, BitVec.ofNat_add, BitVec.ofNat_add]
          congr 1
          ac_rfl

/-! ### The files -/

/-- The entries of the uart with the number `i`, as they are written. -/
def UartHardware.files (hw : UartHardware) (i uart : ℕ) : List StaticNS := [
  uartFile (hw.hwName uart) (i * 3 + 1) uartDataFile 0o666 uart,
  uartFile [] (i * 3 + 2) uartCtlFile 0o666 uart,
  uartFile [] (i * 3 + 3) uartStatusFile 0o444 uart]

/-- The entries of the uarts from the number `i` on. -/
def UartHardware.filesFrom (hw : UartHardware) : ℕ → List ℕ → List StaticNS
  | _, [] => []
  | i, uart :: l => hw.files i uart ++ hw.filesFrom (i + 1) l

/-- The variables when the entries `es` were written. -/
def UartReset.table (es : List StaticNS) (s : UartReset) : UartReset :=
  { s with uartSNS := fun j => es[j]? }

variable {es : List StaticNS} {e : StaticNS}

/-- An entry is written behind the others. -/
theorem putEntry_done {sns : ℕ} (hes : es.length = sns) (h : sns < s.uartSNSCount.toNat) :
  putEntry sns e (s.table es) = .done () (s.table (es ++ [e]))
  := by
  subst hes
  have htable : Function.update (fun j => es[j]?) es.length (some e) = fun j => (es ++ [e])[j]? := by
    funext j
    rcases Nat.lt_trichotomy j es.length with hj | rfl | hj
    · rw [Function.update_of_ne (Nat.ne_of_lt hj), List.getElem?_append_left hj]
    · rw [Function.update_self, List.getElem?_concat_length]
    · rw [Function.update_of_ne (Nat.ne_of_gt hj), List.getElem?_eq_none (Nat.le_of_lt hj),
        List.getElem?_eq_none]
      simpa using hj
  rw [putEntry, bind_done (get_apply _)]
  apply (congrFun (if_pos h) _).trans
  rw [modify_apply, UartReset.table, UartReset.table]
  simp only [htable]

theorem storeName_done {name : Name} (h : name.length < maxName) :
  storeName name s = .done name s
  := by
  rw [storeName, if_pos h]
  rfl

/-- The memory of an entry that is not written holds an empty text. -/
theorem UartHardware.head?_memory (hw : UartHardware) (j : ℕ) :
  (hw.memory j).head? = some 0
  := by
  have hclear := hw.clear j
  have hsize := hw.size j
  cases hmem : hw.memory j with
  | nil =>
      rw [hmem] at hsize
      cases hsize
  | cons b rest =>
      rw [hmem] at hclear
      rw [List.head?_cons, hclear b List.mem_cons_self]

/-- No name is formatted. -/
theorem formatName_done (j : ℕ) (fmt str : List Byte) :
  formatName (hw.memory j) fmt str s = .done [] s
  := by
  obtain ⟨r, q, hrun, -, htext⟩ := Fmt.fmtSprintf_empty (hw.head?_memory j) fmt.length fmt [.string str]
  rw [formatName, hrun]
  dsimp only
  rw [htext]
  exact storeName_done (by decide)

/-- The files of a uart are written behind the others. -/
theorem putUart_done {i uart : ℕ} (hfits : (hw.hwName uart).length < maxName)
    (hes : es.length = i * 3 + 1) (h : i * 3 + 4 < s.uartSNSCount.toNat) :
  putUart hw i (i * 3 + 1) uart (s.table es) = .done () (s.table (es ++ hw.files i uart))
  := by
  rw [putUart, bind_done (storeName_done hfits), bind_done (putEntry_done hes (by omega)),
    bind_done (formatName_done _ _ _), bind_done (putEntry_done (by simp [hes]) (by omega)),
    bind_done (formatName_done _ _ _), putEntry_done (by simp [hes]) (by omega)]
  simp [UartHardware.files]

/-- The files of the uarts are written behind the others. -/
theorem putUarts_done {i : ℕ} {p : Option ℕ} (h : Threads s.next p l)
    (hfits : ∀ uart ∈ l, (hw.hwName uart).length < maxName) (hes : es.length = i * 3 + 1)
    (hcount : (i + l.length) * 3 + 1 < s.uartSNSCount.toNat) :
  putUarts hw l.length i (i * 3 + 1) p (s.table es)
    = .done ((i + l.length) * 3 + 1) (s.table (es ++ hw.filesFrom i l))
  := by
  induction l generalizing i p es with
  | nil => simp [putUarts, pure_apply, UartHardware.filesFrom]
  | cons uart l ih =>
      rw [List.length_cons] at hcount ⊢
      have hlen : (es ++ hw.files i uart).length = (i + 1) * 3 + 1 := by
        rw [List.length_append, hes, UartHardware.files]
        simp only [List.length_cons, List.length_nil]
        omega
      rw [List.forall_mem_cons] at hfits
      have hrest := ih h.2 hfits.2 hlen (by omega)
      rw [UartHardware.filesFrom, ← List.append_assoc]
      have hput := @putUart_done hw s es i uart hfits.1 hes (by omega)
      rw [show (i + 1) * 3 + 1 = i * 3 + 1 + 3 by omega] at hrest
      rw [h.1, putUarts, bind_done hput, bind_done (get_apply _)]
      apply hrest.trans
      congr 1
      omega

/-- The namespace that is built for the uarts `l`, without its sentinel. -/
def UartHardware.entries (hw : UartHardware) (l : List ℕ) : List StaticNS :=
  dotEntry :: hw.filesFrom 0 l

theorem length_filesFrom (i : ℕ) (l : List ℕ) :
  (hw.filesFrom i l).length = 3 * l.length
  := by
  induction l generalizing i with
  | nil => rfl
  | cons uart l ih =>
      rw [UartHardware.filesFrom, List.length_append, ih, List.length_cons, UartHardware.files]
      simp only [List.length_cons, List.length_nil]
      omega

/-- The entries of the namespace are written. -/
theorem buildUartSNS_done {hpCount : BitVec 32} (h : Threads s.next s.hotpluggedUarts l)
    (hl : hpCount.toNat = l.length) (hcount : s.uartSNSCount.toNat = 2 + 3 * l.length)
    (hfits : ∀ uart ∈ l, (hw.hwName uart).length < maxName) :
  buildUartSNS hw hpCount (s.table [])
    = .done () (s.table (hw.entries l ++ [sentinel]))
  := by
  have hdot := @putEntry_done s [] dotEntry 0 rfl (by omega)
  have hfiles := @putUarts_done hw s l [dotEntry] 0 s.hotpluggedUarts h hfits rfl (by omega)
  have hlen : ([dotEntry] ++ hw.filesFrom 0 l).length = (0 + l.length) * 3 + 1 := by
    rw [List.length_append, length_filesFrom, List.length_singleton]
    omega
  rw [buildUartSNS, bind_done hdot, bind_done (get_apply _), hl]
  apply (bind_done hfiles).trans
  apply putEntry_done hlen
  omega

/-- Disjoint chains of uarts, which the hardware returns. -/
structure Chains (hw : UartHardware) (next : ℕ → Option ℕ) (cs : List (List ℕ)) : Prop where
  hotplug : hw.hotplug = cs.map List.head?
  threads : ∀ c ∈ cs, Threads next c.head? c
  disjoint : cs.flatten.Nodup

/-- `resetUart` links the uarts, and writes the entries of the namespace and the sentinel. -/
theorem resetUart_done {next : ℕ → Option ℕ} (h : Chains hw next cs) (hk : cs.flatten.length ≤ k)
    (hgrants : hw.grants = true) (hcount : 3 * cs.flatten.length ≤ staticNSSentinel)
    (hfits : ∀ uart ∈ cs.flatten, (hw.hwName uart).length < maxName) :
  Returns (UartReset.atBoot next) (resetUart k hw) fun _ s' =>
    Threads s'.next s'.hotpluggedUarts cs.flatten
    ∧ s'.uartSNSCount.toNat = 2 + 3 * cs.flatten.length
    ∧ ∀ j, s'.uartSNS j = (hw.entries cs.flatten ++ [sentinel])[j]?
  := by
  have hlinked : Linked (UartReset.atBoot next) [] none := ⟨rfl, rfl⟩
  have hlength : ∀ c ∈ cs, c.length ≤ k := by
    intro c hc
    apply (List.Sublist.length_le _).trans hk
    apply List.sublist_flatten_of_mem hc
  obtain ⟨s₁, hrun, hthreads, hsns⟩ := countUarts_done hlinked h.threads h.disjoint hlength
    (c := 0)
  rw [List.nil_append] at hthreads
  rw [resetUart, h.hotplug]
  apply Returns.step hrun
  apply Returns.step (modify_apply _ _)
  rw [if_pos hgrants]
  have hfew : cs.flatten.length < 2 ^ 16 := by
    rw [staticNSSentinel] at hcount
    omega
  generalize hn : (0 : BitVec 32) + .ofNat 32 cs.flatten.length = hpCount
  have htoNat : hpCount.toNat = cs.flatten.length := by
    rw [← hn]
    bv_omega
  have hcount₁ : (2 + 3 * hpCount).toNat = 2 + 3 * cs.flatten.length := by
    bv_omega
  have hbuild := @buildUartSNS_done hw { s₁ with uartSNSCount := 2 + 3 * hpCount } cs.flatten
    hpCount hthreads htoNat hcount₁ hfits
  have hempty : UartReset.table [] { s₁ with uartSNSCount := 2 + 3 * hpCount }
      = { s₁ with uartSNSCount := 2 + 3 * hpCount } := by
    rw [UartReset.table, hsns]
    rfl
  rw [hempty] at hbuild
  refine ⟨(), _, hbuild, hthreads, hcount₁, fun _ => rfl⟩

end Dev
