import Manos.Dev.Hotplug
import Manos.Dev.Static

/-!
# The namespace of the uarts that are hotplugged

The namespace that `resetUart` builds is a tree of one directory.  The data file of a uart is found in
it by the name of the uart; the control and the status files have no names, and are not found.
-/

namespace Dev

open Exec

variable {hw : UartHardware} {l : List ℕ} {i j uart s : ℕ} {e : StaticNS}

/-! ### The entries -/

theorem mkStaticNSFid_zero (s : ℕ) :
  mkStaticNSFid 0 s = s % 2 ^ 16
  := by
  rw [mkStaticNSFid, ← Nat.and_two_pow_sub_one_eq_mod]
  simp

/-- The crumb of a file with the index `s`. -/
def fileCrumb (s : ℕ) : Crumb := ⟨crumbIsFile ||| crumbIsStatic, mkStaticNSFid 0 s⟩

theorem selfIdx_fileCrumb (h : s ≤ staticNSSentinel) :
  (fileCrumb s).selfIdx = s
  := by
  rw [staticNSSentinel] at h
  rw [Crumb.selfIdx, fileCrumb, mkStaticNSFid_zero, show 0xffff = 2 ^ 16 - 1 from rfl,
    Nat.and_two_pow_sub_one_eq_mod]
  dsimp only
  omega

theorem parentIdx_fileCrumb (s : ℕ) :
  (fileCrumb s).parentIdx = 0
  := by
  rw [Crumb.parentIdx, fileCrumb, mkStaticNSFid_zero, Nat.shiftRight_eq_div_pow,
    Nat.div_eq_of_lt (Nat.mod_lt _ (by decide)), Nat.zero_and]

theorem isDir_fileCrumb (s : ℕ) :
  (fileCrumb s).isDir = false
  := by
  rw [Crumb.isDir, fileCrumb, decide_eq_false_iff_not]
  exact (show ¬ (crumbIsFile ||| crumbIsStatic) &&& crumbIsDir ≠ 0 by decide)

theorem isStatic_fileCrumb (s : ℕ) :
  (fileCrumb s).isStatic
  := by
  rw [Crumb.isStatic, fileCrumb, decide_eq_true_eq]
  exact (show (crumbIsFile ||| crumbIsStatic) &&& crumbIsStatic ≠ 0 by decide)

/-- The crumbs of the files of the uarts. -/
theorem crumb_filesFrom (h : (hw.filesFrom i l)[j]? = some e) :
  e.crumb = fileCrumb (i * 3 + j + 1)
  := by
  induction l generalizing i j with
  | nil => cases h
  | cons uart l ih =>
      rw [UartHardware.filesFrom, UartHardware.files] at h
      obtain _ | _ | _ | j := j
      · cases h
        rfl
      · cases h
        rfl
      · cases h
        rfl
      · rw [ih h]
        congr 1
        omega

/-- An entry is the directory, or a file. -/
theorem crumb_entries (h : (hw.entries l)[j]? = some e) (hj : 0 < j) :
  e.crumb = fileCrumb j
  := by
  obtain ⟨j, rfl⟩ := Nat.exists_eq_add_one_of_ne_zero (Nat.ne_of_gt hj)
  rw [UartHardware.entries, List.getElem?_cons_succ] at h
  rw [crumb_filesFrom h]
  congr 1
  omega

theorem length_entries :
  (hw.entries l).length = 3 * l.length + 1
  := by
  rw [UartHardware.entries, List.length_cons, length_filesFrom]

theorem self_entries (h : 3 * l.length ≤ staticNSSentinel) (hj : j < (hw.entries l).length) :
  (hw.entries l)[j].crumb.selfIdx = j
  := by
  rcases Nat.eq_zero_or_pos j with rfl | hpos
  · exact (show dotEntry.crumb.selfIdx = 0 by decide)
  · rw [length_entries] at hj
    rw [crumb_entries (List.getElem?_eq_getElem _) hpos, selfIdx_fileCrumb]
    omega

theorem parent_entries (hj : j < (hw.entries l).length) (hpos : 0 < j) :
  (hw.entries l)[j].crumb.parentIdx = 0 ∧ (hw.entries l)[j].crumb.isDir = false
  := by
  rw [crumb_entries (List.getElem?_eq_getElem _) hpos, parentIdx_fileCrumb]
  exact ⟨rfl, isDir_fileCrumb j⟩

/-- The namespace is a tree of one directory. -/
theorem staticTree_entries_uarts (h : 3 * l.length ≤ staticNSSentinel) (hl : l ≠ []) :
  StaticTree (hw.entries l)
  := by
  have hparent : ∀ j (hj : j < (hw.entries l).length), 0 < j →
      (hw.entries l)[j].crumb.parentIdx = 0 := fun j hj hpos => (parent_entries hj hpos).1
  have hpos : 0 < (hw.entries l).length := Nat.succ_pos _
  have hroot : (hw.entries l)[0].crumb.parentIdx = 0xfff :=
    show dotEntry.crumb.parentIdx = 0xfff by decide
  constructor
  case toOrdered =>
    constructor
    case static =>
      intro e he
      obtain ⟨j, hj, rfl⟩ := List.getElem_of_mem he
      rcases Nat.eq_zero_or_pos j with rfl | hpos
      · exact (show dotEntry.crumb.isStatic by decide)
      · rw [crumb_entries (List.getElem?_eq_getElem _) hpos]
        exact isStatic_fileCrumb j
    case self =>
      intro j hj
      apply self_entries h
    case root =>
      intro _
      rw [hroot]
    case parent =>
      intro j hj hpos
      rw [hparent j hj hpos]
      exact ⟨hpos, by decide⟩
    case together =>
      intro i j k hij hjk hk heq
      rcases Nat.eq_zero_or_pos i with rfl | hpos
      · rw [hroot, hparent k hk (by omega)] at heq
        cases heq
      · rw [hparent i (by omega) hpos, hparent j (by omega) (by omega)]
  case pos => exact hpos
  case rootDir => exact (show dotEntry.crumb.isDir by decide)
  case dir =>
    intro j hj hpos
    rw [hparent j hj hpos]
    exact (show ([dotEntry][0]?).any (·.crumb.isDir) by decide)
  case child =>
    intro j hj hdir
    rcases Nat.eq_zero_or_pos j with rfl | hpos
    · have hlen := List.length_pos_of_ne_nil hl
      have h₁ : 1 < (hw.entries l).length := by
        rw [length_entries]
        omega
      exact ⟨1, h₁, Nat.one_pos, hparent 1 h₁ Nat.one_pos⟩
    · rw [(parent_entries hj hpos).2] at hdir
      cases hdir

/-! ### The names -/

/-- The data file of a uart is the one that is found by its name. -/
theorem find?_hwName (hnames : (l.map hw.hwName).Nodup) (huart : uart ∈ l)
    (hne : hw.hwName uart ≠ []) :
  ∃ e, (hw.filesFrom i l).find? (hasName (hw.hwName uart)) = some e ∧
    e.length = uartDataFile ∧ e.contents = .uart uart
  := by
  induction l generalizing i with
  | nil => cases huart
  | cons v l ih =>
      rw [List.map_cons, List.nodup_cons] at hnames
      rw [UartHardware.filesFrom, UartHardware.files, List.cons_append]
      rcases List.mem_cons.mp huart with rfl | hmem
      · rw [List.find?_cons_of_pos (by simp [hasName, uartFile])]
        exact ⟨_, rfl, rfl, rfl⟩
      · have hv : hw.hwName uart ≠ hw.hwName v := by
          intro heq
          apply hnames.1
          rw [← heq]
          exact List.mem_map_of_mem hmem
        rw [List.find?_cons_of_neg (by simp [hasName, uartFile, hv]), List.cons_append,
          List.find?_cons_of_neg (by simp [hasName, uartFile, hne]), List.cons_append,
          List.find?_cons_of_neg (by simp [hasName, uartFile, hne]), List.nil_append]
        exact ih hnames.2 hmem

/-- No other name is found. -/
theorem find?_eq_none {name : Name} (hname : name ∉ l.map hw.hwName) (hne : name ≠ []) :
  (hw.filesFrom i l).find? (hasName name) = none
  := by
  induction l generalizing i with
  | nil => rfl
  | cons v l ih =>
      rw [List.map_cons, List.mem_cons, not_or] at hname
      rw [UartHardware.filesFrom, List.find?_append, ih hname.2]
      simp [UartHardware.files, hasName, uartFile, hname.1, hne]

/-! ### Walks -/

/-- The children of the directory are the files. -/
theorem children_entries :
  children (hw.entries l) 0 = hw.filesFrom 0 l
  := by
  have hall : ∀ e ∈ hw.filesFrom 0 l, isChild 0 e := by
    intro e he
    obtain ⟨j, hj, rfl⟩ := List.getElem_of_mem he
    rw [isChild, crumb_filesFrom (List.getElem?_eq_getElem hj), parentIdx_fileCrumb]
    rfl
  rw [children, UartHardware.entries, List.filter_cons_of_neg (by decide),
    List.filter_eq_self.mpr hall]

/-- A step from the directory leads to the file with the name. -/
theorem stepIn_dotEntry {name : Name} (hdot : name ≠ text ".") (hup : name ≠ text "..") :
  stepIn (hw.entries l) dotEntry name = (hw.filesFrom 0 l).find? (hasName name)
  := by
  have hself : dotEntry.crumb.selfIdx = 0 := by decide
  rw [stepIn, if_neg (by decide), if_neg hdot, if_neg hup, hself, children_entries]

/-- A walk from the directory with a name leads to the file that is found by it. -/
theorem genericWalk_entries (h : 3 * l.length ≤ staticNSSentinel) (hl : l ≠ []) {name : Name}
    (hdot : name ≠ text ".") (hup : name ≠ text "..") {p : Portal}
    (hp : p.crumb = dotEntry.crumb) (H : Heap) :
  genericWalk p [name] (tableFn (hw.entries l ++ [sentinel])) H =
    if H.grants H.next then
      .done (some (H.next,
        ⟨1, ((hw.filesFrom 0 l).find? (hasName name)).toList.map (·.crumb)⟩)) H.alloc
    else .done none H.refuse
  := by
  have htrail : Paths.trail (stepIn (hw.entries l)) dotEntry [name]
      = ((hw.filesFrom 0 l).find? (hasName name)).toList := by
    have hstep := @stepIn_dotEntry hw l name hdot hup
    cases hfind : (hw.filesFrom 0 l).find? (hasName name) with
    | none => exact Paths.trail_of_none (hstep.trans hfind)
    | some e => exact Paths.trail_of_some (hstep.trans hfind)
  rw [genericWalk_trail (staticTree_entries_uarts h hl) List.mem_cons_self hp (by decide)
    (List.cons_ne_nil _ _), htrail]
  rfl

/-! ### Files without names -/

variable {st : UartReset} {k : ℕ}

/-- The control and the status files among the entries that were written have no names. -/
def UartReset.Nameless (s : UartReset) : Prop :=
  ∀ j e uart, s.uartSNS j = some e → e.contents = .uart uart → e.length ≠ uartDataFile → e.name = []

/-- An entry that is no control or status file, or has no name, may be written. -/
theorem putEntry_nameless (h : st.Nameless)
    (he : ∀ uart, e.contents = .uart uart → e.length ≠ uartDataFile → e.name = []) :
  Ensures st (putEntry s e) fun _ st' => st'.Nameless
  := by
  apply Ensures.step (get_apply st)
  split
  · apply Ensures.done (modify_apply _ _)
    intro j e' uart hj
    dsimp only at hj
    rcases eq_or_ne j s with rfl | hne
    · rw [Function.update_self] at hj
      cases hj
      exact he uart
    · rw [Function.update_of_ne hne] at hj
      exact h j e' uart hj
  · exact Ensures.fault

theorem storeName_same (name : Name) :
  Ensures st (storeName name) fun _ st' => st' = st
  := by
  rw [storeName]
  split
  · exact Ensures.done rfl rfl
  · exact Ensures.fault

/-- The files of a uart are written. -/
theorem putUart_nameless (h : st.Nameless) :
  Ensures st (putUart hw i s uart) fun _ st' => st'.Nameless
  := by
  apply Ensures.bind (storeName_same _)
  rintro name st' rfl
  apply Ensures.bind (putEntry_nameless h fun _ _ hlength => absurd rfl hlength)
  intro _ st₁ h₁
  apply Ensures.step (formatName_done _ _ _)
  apply Ensures.bind (putEntry_nameless h₁ fun _ _ _ => rfl)
  intro _ st₂ h₂
  apply Ensures.step (formatName_done _ _ _)
  exact putEntry_nameless h₂ fun _ _ _ => rfl

/-- The files of the uarts are written. -/
theorem putUarts_nameless (n : ℕ) (p : Option ℕ) (h : st.Nameless) :
  Ensures st (putUarts hw n i s p) fun _ st' => st'.Nameless
  := by
  induction n generalizing st i s p with
  | zero => exact Ensures.done rfl h
  | succ n ih =>
      cases p with
      | none => exact Ensures.fault
      | some uart =>
          apply Ensures.bind (putUart_nameless h)
          intro _ st₁ h₁
          apply Ensures.step (get_apply st₁)
          exact ih _ h₁

theorem buildUartSNS_nameless (hpCount : BitVec 32) (h : st.Nameless) :
  Ensures st (buildUartSNS hw hpCount) fun _ st' => st'.Nameless
  := by
  have hdot : ∀ uart, dotEntry.contents ≠ .uart uart := by
    intro uart heq
    cases heq
  apply Ensures.bind (putEntry_nameless h fun uart hcontents => absurd hcontents (hdot uart))
  intro _ st₁ h₁
  apply Ensures.step (get_apply st₁)
  apply Ensures.bind (putUarts_nameless _ _ h₁)
  intro sns st₂ h₂
  exact putEntry_nameless h₂ fun _ _ _ => rfl

/-- No entry is written while the chains are linked. -/
theorem countChain_same (x : ℕ) (c : BitVec 32) :
  Ensures st (countChain k x c) fun _ st' => st' = st
  := by
  induction k generalizing x c with
  | zero => exact Ensures.fault
  | succ k ih =>
      apply Ensures.step (get_apply st)
      cases st.next x with
      | none => exact Ensures.done rfl rfl
      | some y => exact ih y _

theorem spliceUart_same (hpChain : Option ℕ) (uart : ℕ) :
  Ensures st (spliceUart hpChain uart) fun _ st' => st'.uartSNS = st.uartSNS
  := by
  apply Ensures.step (get_apply st)
  split
  · cases hpChain with
    | none => exact Ensures.fault
    | some x => exact Ensures.done (modify_apply _ _) rfl
  · exact Ensures.done (modify_apply _ _) rfl

theorem countUarts_same (table : List (Option ℕ)) (hpChain : Option ℕ) (c : BitVec 32) :
  Ensures st (countUarts k table hpChain c) fun _ st' => st'.uartSNS = st.uartSNS
  := by
  induction table generalizing st hpChain c with
  | nil => exact Ensures.done rfl rfl
  | cons p table ih =>
      cases p with
      | none => exact ih hpChain c
      | some uart =>
          apply Ensures.bind (spliceUart_same hpChain uart)
          intro _ st₁ h₁
          apply Ensures.bind (countChain_same uart (c + 1))
          rintro ⟨x, c'⟩ st₂ rfl
          exact (ih (some x) c').mono fun _ st' h => h.trans h₁

/-- `resetUart` leaves the control and the status files without names. -/
theorem resetUart_nameless (hw : UartHardware) (next : ℕ → Option ℕ) (k : ℕ) :
  Ensures (UartReset.atBoot next) (resetUart k hw) fun _ st' => hw.grants = true ∧ st'.Nameless
  := by
  apply Ensures.bind (countUarts_same _ _ _)
  intro hpCount st₁ h₁
  apply Ensures.step (modify_apply _ _)
  split
  next hgrants =>
    have hempty : UartReset.Nameless { st₁ with uartSNSCount := 2 + 3 * hpCount } := by
      intro j e uart hj
      dsimp only at hj
      rw [h₁] at hj
      cases hj
    exact (buildUartSNS_nameless hpCount hempty).mono fun _ st' h => ⟨hgrants, h⟩
  next => exact Ensures.fault

/-! ### The whole function -/

/-- The entries that are no sentinel. -/
theorem sentinel_notMem :
  sentinel ∉ hw.entries l
  := by
  intro hmem
  obtain ⟨j, hj, heq⟩ := List.getElem_of_mem hmem
  have hcrumb := congrArg StaticNS.crumb heq
  rcases Nat.eq_zero_or_pos j with rfl | hpos
  · revert hcrumb
    exact (show dotEntry.crumb ≠ sentinel.crumb by decide)
  · rw [crumb_entries (List.getElem?_eq_getElem _) hpos] at hcrumb
    have hflags := congrArg Crumb.flags hcrumb
    revert hflags
    exact (show crumbIsFile ||| crumbIsStatic ≠ sentinel.crumb.flags by decide)

/-- The namespace of a platform is the one that is built for its uarts. -/
theorem entries_uartSNS {pf : Platform}
    (hname : ∀ i uart, (hotpluggedUarts pf)[i]? = some uart → hw.hwName i = text uart.hwName) :
  hw.entries (List.range (hotpluggedUarts pf).length) = uartSNS pf
  := by
  cases pf with
  | k70cw =>
      have hfirst := hname 0 _ rfl
      change dotEntry :: (hw.files 0 0 ++ []) = _
      rw [UartHardware.files, hfirst]
      rfl
  | nice =>
      have hfirst := hname 0 _ rfl
      change dotEntry :: (hw.files 0 0 ++ []) = _
      rw [UartHardware.files, hfirst]
      rfl

/-- The kinds of files of a uart: the text behind its name, and the field `length`. -/
def uartFileKinds : List (Name × ℕ) :=
  [(text "", uartDataFile), (text "_ctl", uartCtlFile), (text "_status", uartStatusFile)]

/--
The uarts `l` are linked and reachable: the entries that were allocated are written, `ns` and the
sentinel, which are a well-formed namespace in which a walk to the name of a file of a uart leads to
this file.
-/
structure UartReset.Serves (s : UartReset) (hw : UartHardware) (l : List ℕ) (ns : List StaticNS) :
    Prop where
  threads : Threads s.next s.hotpluggedUarts l
  written : ∀ j, s.uartSNS j = (ns ++ [sentinel])[j]?
  count : (ns ++ [sentinel]).length = s.uartSNSCount.toNat
  last : sentinel ∉ ns
  self : ∀ j (hj : j < ns.length), ns[j].crumb.selfIdx = j
  parent : ∀ j (hj : j < ns.length), 0 < j → ns[j].crumb.parentIdx = 0
  names : (ns.map (·.name)).Nodup
  reached : ∀ uart ∈ l, ∀ f ∈ uartFileKinds,
    ∃ e ∈ ns, e.length = f.2 ∧ e.contents = .uart uart ∧
      ∀ p H, p.crumb = dotEntry.crumb →
        genericWalk p [hw.hwName uart ++ f.1] (tableFn (ns ++ [sentinel])) H =
          if H.grants H.next then .done (some (H.next, ⟨1, [e.crumb]⟩)) H.alloc
          else .done none H.refuse

/-- The control and the status file of a uart have different names when both are reachable. -/
theorem UartReset.Serves.eq_nil {ns : List StaticNS} (h : st.Serves hw l ns) (hst : st.Nameless) :
  l = []
  := by
  rw [List.eq_nil_iff_forall_not_mem]
  intro uart huart
  have hnameless : ∀ f ∈ uartFileKinds, f.2 ≠ uartDataFile → ∃ e ∈ ns, e.length = f.2 ∧ e.name = [] := by
    intro f hf hdata
    obtain ⟨e, he, hlength, hcontents, -⟩ := h.reached uart huart f hf
    obtain ⟨j, hj, rfl⟩ := List.getElem_of_mem he
    refine ⟨ns[j], he, hlength, hst j ns[j] uart ?_ hcontents (hlength ▸ hdata)⟩
    rw [h.written, List.getElem?_append_left hj, List.getElem?_eq_getElem hj]
  obtain ⟨e, he, hctl, hname⟩ := hnameless (text "_ctl", uartCtlFile) (by decide) (by decide)
  obtain ⟨e', he', hstatus, hname'⟩ :=
    hnameless (text "_status", uartStatusFile) (by decide) (by decide)
  have heq : e = e' := List.inj_on_of_nodup_map h.names he he' (hname.trans hname'.symm)
  rw [heq, hstatus] at hctl
  cases hctl

/-- Only memory that is granted is written, and then a uart has files without names. -/
theorem serves_eq_nil {next : ℕ → Option ℕ} {l : List ℕ}
    (h : Returns (UartReset.atBoot next) (resetUart k hw) fun _ st' => ∃ ns, st'.Serves hw l ns) :
  hw.grants = true ∧ l = []
  := by
  obtain ⟨-, st', ⟨ns, hserves⟩, hgrants, hnameless⟩ :=
    h.and_ensures (resetUart_nameless hw next k)
  exact ⟨hgrants, hserves.eq_nil hnameless⟩

/-- Without uarts the namespace is the directory alone. -/
theorem serves_nil {next : ℕ → Option ℕ} {cs : List (List ℕ)} (h : Chains hw next cs)
    (hgrants : hw.grants = true) (hcs : cs.flatten = []) :
  Returns (UartReset.atBoot next) (resetUart k hw) fun _ st' => ∃ ns, st'.Serves hw cs.flatten ns
  := by
  have hdone := @resetUart_done hw k cs next h (by rw [hcs]; apply Nat.zero_le) hgrants
    (by rw [hcs]; apply Nat.zero_le) (by rw [hcs]; apply List.forall_mem_nil)
  rw [hcs] at hdone ⊢
  apply hdone.mono
  rintro _ st' ⟨hthreads, hcount, hentries⟩
  refine ⟨hw.entries [], ?_⟩
  constructor
  case threads => exact hthreads
  case written => exact hentries
  case count => exact hcount.symm
  case last => exact sentinel_notMem
  case self => exact fun j => self_entries (Nat.zero_le _)
  case parent => exact fun j hj hpos => (parent_entries hj hpos).1
  case names => exact List.nodup_singleton _
  case reached => exact List.forall_mem_nil _

/--
`resetUart` links every uart once and builds a tree of one directory in which a walk to the name of
a uart leads to its data file, when the names differ, fit into the entries and are no `.` and `..`,
and there are no more entries than indices.  Another name leads nowhere.
-/
theorem resetUart_dataFiles {next : ℕ → Option ℕ} {cs : List (List ℕ)} (h : Chains hw next cs)
    (hk : cs.flatten.length ≤ k) (hgrants : hw.grants = true) (hne : cs.flatten ≠ [])
    (hcount : 3 * cs.flatten.length ≤ staticNSSentinel)
    (hfits : ∀ uart ∈ cs.flatten, (hw.hwName uart).length < maxName)
    (hnames : ([] :: text "." :: text ".." :: cs.flatten.map hw.hwName).Nodup) :
  Returns (UartReset.atBoot next) (resetUart k hw) fun _ st' =>
    Threads st'.next st'.hotpluggedUarts cs.flatten ∧ ∃ ns : List StaticNS,
      (∀ j, st'.uartSNS j = (ns ++ [sentinel])[j]?) ∧ StaticTree ns ∧
      (∀ uart ∈ cs.flatten, ∃ e ∈ ns, e.length = uartDataFile ∧ e.contents = .uart uart ∧
        ∀ p H, p.crumb = dotEntry.crumb →
          genericWalk p [hw.hwName uart] (tableFn (ns ++ [sentinel])) H =
            if H.grants H.next then .done (some (H.next, ⟨1, [e.crumb]⟩)) H.alloc
            else .done none H.refuse) ∧
      ∀ name, name ∉ [] :: text "." :: text ".." :: cs.flatten.map hw.hwName →
        ∀ p H, p.crumb = dotEntry.crumb →
          genericWalk p [name] (tableFn (ns ++ [sentinel])) H =
            if H.grants H.next then .done (some (H.next, ⟨1, []⟩)) H.alloc
            else .done none H.refuse
  := by
  simp only [List.nodup_cons, List.mem_cons, not_or] at hnames
  obtain ⟨⟨-, -, hnil⟩, ⟨-, hdot⟩, hup, hnodup⟩ := hnames
  apply (resetUart_done h hk hgrants hcount hfits).mono
  rintro _ st' ⟨hthreads, -, hentries⟩
  refine ⟨hthreads, _, hentries, staticTree_entries_uarts hcount hne, ?_, ?_⟩
  · intro uart huart
    have hmem : hw.hwName uart ∈ cs.flatten.map hw.hwName := List.mem_map_of_mem huart
    obtain ⟨e, hfind, hlength, hcontents⟩ :=
      find?_hwName (i := 0) hnodup huart (ne_of_mem_of_not_mem hmem hnil)
    refine ⟨e, List.mem_cons_of_mem _ (List.mem_of_find?_eq_some hfind), hlength, hcontents, ?_⟩
    intro p H hp
    rw [genericWalk_entries hcount hne (ne_of_mem_of_not_mem hmem hdot)
      (ne_of_mem_of_not_mem hmem hup) hp, hfind]
    rfl
  · intro name hname p H hp
    simp only [List.mem_cons, not_or] at hname
    obtain ⟨hnil', hdot', hup', hother⟩ := hname
    rw [genericWalk_entries hcount hne hdot' hup' hp, find?_eq_none hother hnil']
    rfl

/-- Two uarts with the names `a` and `b`, each a chain of its own. -/
def twoUarts (a b : Name) : UartHardware where
  hotplug := [some 0, some 1]
  name := fun uart => if uart = 0 then a else b
  grants := true
  memory := fun _ => .replicate maxName 0
  size := fun _ => (List.length_replicate).ge
  clear := fun _ _ hb => (List.mem_replicate.mp hb).2

theorem twoUarts_chains (a b : Name) :
  Chains (twoUarts a b) (fun _ => none) [[0], [1]]
  := by
  constructor
  case hotplug => rfl
  case threads =>
    intro c hc
    simp only [List.mem_cons, List.not_mem_nil, or_false] at hc
    rcases hc with rfl | rfl
    · exact ⟨rfl, rfl⟩
    · exact ⟨rfl, rfl⟩
  case disjoint => decide

/--
What `resetUart` builds serves the uarts exactly if its memory is granted and there are no uarts.
-/
theorem resetUart_serves_iff {next : ℕ → Option ℕ} {cs : List (List ℕ)} {k : ℕ}
    (h : Chains hw next cs) :
  (Returns (UartReset.atBoot next) (resetUart k hw) fun _ s' => ∃ ns, s'.Serves hw cs.flatten ns)
    ↔ hw.grants = true ∧ cs.flatten = []
  := by
  constructor
  · exact serves_eq_nil
  · rintro ⟨hgrants, hcs⟩
    exact serves_nil h hgrants hcs

/-- Two uarts are not served. -/
theorem resetUart_serves_iff_two :
  ¬ Returns (UartReset.atBoot fun _ => none) (resetUart 2 (twoUarts (text "u") (text "v")))
      fun _ s' => ∃ ns, s'.Serves (twoUarts (text "u") (text "v")) [0, 1] ns
  := by
  intro hserves
  have hnil := (resetUart_serves_iff (twoUarts_chains (text "u") (text "v"))).mp hserves
  cases hnil.2

/-- Uarts with different names, which fit into the entries, are not served. -/
theorem not_resetUart_serves :
  ¬ ∀ (hw : UartHardware) (next : ℕ → Option ℕ) (cs : List (List ℕ)) (k : ℕ),
    Chains hw next cs → (cs.flatten.map hw.hwName).Nodup → hw.grants = true →
      cs.flatten.length ≤ k → 3 * cs.flatten.length ≤ staticNSSentinel →
      (∀ uart ∈ cs.flatten, (hw.hwName uart).length + 7 < maxName) →
      Returns (UartReset.atBoot next) (resetUart k hw) fun _ s' =>
        ∃ ns, s'.Serves hw cs.flatten ns
  := by
  intro hserves
  have htwo := hserves (twoUarts (text "u") (text "v")) (fun _ => none) [[0], [1]] 2
    (twoUarts_chains _ _) (by decide) rfl (by decide) (by decide) (by decide)
  cases (serves_eq_nil htwo).2

end Dev
