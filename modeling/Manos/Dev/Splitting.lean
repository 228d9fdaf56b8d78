import Manos.Dev.Opening
import Manos.Dev.Resolution

/-!
# Splitting a path

`mkPath` ends the components of a path in its buffer, and then walks over as many of them as it has
counted slashes, the leading one included.  An absolute path has as many components as slashes; a
relative path has one more, and its last component is left out as soon as there are two.
-/

namespace Dev

open Exec

/-! ### Components -/

/-- The components of a text. -/
def components (c : List Byte) : List Name := c.splitOn slashChar

/-- The components, each with a zero at its end. -/
def ended (names : List Name) : List Byte := (names.map fun a => a ++ [0]).flatten

theorem ended_cons (a : Name) (names : List Name) :
  ended (a :: names) = a ++ 0 :: ended names
  := by
  simp [ended]

theorem components_cons (b : Byte) (c : List Byte) :
  components (b :: c)
    = if b = slashChar then [] :: components c else (components c).modifyHead (List.cons b)
  := by
  rw [components, List.splitOn_cons_eq_if_modifyHead]
  simp [components]

/-- There is one component more than slashes. -/
theorem length_components (c : List Byte) :
  (components c).length = c.count slashChar + 1
  := by
  induction c with
  | nil => rfl
  | cons b c ih =>
      rw [components_cons, List.count_cons]
      split
      case isTrue h => simp [h, ih]
      case isFalse h => simp [h, ih]

/-- The loop of `mkPath` over a text without a zero, and zeros after it, ends the components. -/
theorem endLoop_eq {c : List Byte} (h : 0 ∉ c) (k : ℕ) :
  endLoop (c ++ List.replicate (k + 1) 0)
    = (ended (components c) ++ List.replicate k 0, c.count slashChar)
  := by
  induction c with
  | nil =>
      rw [List.nil_append, List.replicate_succ, endLoop, if_pos rfl]
      rfl
  | cons b c ih =>
      rw [List.mem_cons, not_or] at h
      rw [List.cons_append, endLoop, if_neg (Ne.symm h.1), ih h.2, components_cons, List.count_cons]
      split
      case isTrue hb => simp [hb, ended_cons]
      case isFalse hb =>
        obtain ⟨a, names, hc⟩ := List.exists_cons_of_ne_nil (List.splitOn_ne_nil slashChar c)
        rw [components, hc, List.modifyHead_cons, ended_cons, ended_cons]
        simp [hb]

theorem length_endLoop (l : List Byte) :
  (endLoop l).1.length = l.length
  := by
  induction l with
  | nil => rfl
  | cons b l ih =>
      rw [endLoop]
      split
      · rfl
      · split
        · simp [ih]
        · simp [ih]

/-- The components have no zero. -/
theorem zero_notMem_components {c : List Byte} (h : 0 ∉ c) :
  ∀ a ∈ components c, 0 ∉ a
  := by
  induction c with
  | nil => simp [components]
  | cons b c ih =>
      rw [List.mem_cons, not_or] at h
      rw [components_cons]
      split
      · intro a ha
        rcases List.mem_cons.mp ha with rfl | ha
        · apply List.not_mem_nil
        · apply ih h.2 a ha
      · obtain ⟨d, names, hc⟩ := List.exists_cons_of_ne_nil (List.splitOn_ne_nil slashChar c)
        rw [components, hc] at ih ⊢
        intro a ha
        rcases List.mem_cons.mp ha with rfl | ha
        · rw [List.mem_cons, not_or]
          refine ⟨h.1, ih h.2 d List.mem_cons_self⟩
        · apply ih h.2 a (List.mem_cons_of_mem _ ha)

/-! ### The elements -/

/-- The walk over the elements comes to the first of the components, which are in the buffer with
their zeros. -/
theorem elemsLoop_ended {names : List Name} {n : ℕ} (hz : ∀ a ∈ names, 0 ∉ a)
    (hn : n ≤ names.length) (before after : List Byte) :
  let buf := before ++ ended names ++ after
  (elemsLoop buf n before.length).map (fun c => cstr (buf.drop c)) = names.take n
    ∧ ∀ c ∈ elemsLoop buf n before.length, c + (cstr (buf.drop c)).length < buf.length
  := by
  induction n generalizing names before with
  | zero => simp [elemsLoop]
  | succ n ih =>
      cases names with
      | nil => simp at hn
      | cons a names =>
          have hdrop : (before ++ ended (a :: names) ++ after).drop before.length
              = a ++ 0 :: (ended names ++ after) := by
            rw [List.append_assoc, List.drop_left, ended_cons, List.append_assoc, List.cons_append]
          have hstr : cstr ((before ++ ended (a :: names) ++ after).drop before.length) = a := by
            rw [hdrop, cstr_append_zero (hz a List.mem_cons_self)]
          have hbuf : before ++ ended (a :: names) ++ after
              = (before ++ (a ++ [0])) ++ ended names ++ after := by
            simp [ended_cons]
          have hnext : before.length + a.length + 1 = (before ++ (a ++ [0])).length := by
            simp only [List.length_append, List.length_singleton]
            omega
          rw [List.length_cons] at hn
          obtain ⟨ih₁, ih₂⟩ := ih (fun d hd => hz d (List.mem_cons_of_mem _ hd)) (by omega)
            (before ++ (a ++ [0]))
          rw [← hbuf, ← hnext] at ih₁ ih₂
          simp only [elemsLoop, List.map_cons, hstr, List.take_succ_cons, List.forall_mem_cons]
          refine ⟨?_, ?_, ih₂⟩
          · rw [ih₁]
          · simp only [ended_cons, List.length_append, List.length_cons]
            omega

/-! ### Paths -/

/-- The text of a path that is split: without a leading slash. -/
def unrooted (path : Name) : List Byte := if path.head? = some slashChar then path.tail else path

theorem unrooted_spec (path : Name) :
  (if path.head? = some slashChar then [slashChar] else []) ++ unrooted path = path
  := by
  rw [unrooted]
  split
  case isTrue h =>
    cases path with
    | nil => cases h
    | cons b path =>
        cases h
        rfl
  case isFalse => rfl

variable {path : Name} {H : Heap}

/-- The buffer of a path has the components of its text. -/
theorem pathBuf_eq (h0 : 0 ∉ path) :
  (∃ k, (pathBuf path).1 = ended (components (unrooted path)) ++ List.replicate k 0)
    ∧ (pathBuf path).2 = (unrooted path).count slashChar
    ∧ (pathBuf path).1.length = path.length + 1
  := by
  have hspec := unrooted_spec path
  have h0' : 0 ∉ unrooted path := by
    intro hmem
    apply h0
    rw [← hspec]
    apply List.mem_append_right _ hmem
  have hlen : (unrooted path).length ≤ path.length := by
    have := congrArg List.length hspec
    rw [List.length_append] at this
    omega
  have hbuf : pathBuf path = endLoop (unrooted path
      ++ List.replicate (path.length - (unrooted path).length + 1) 0) := by
    rw [show path.length - (unrooted path).length + 1 = path.length + 1 - (unrooted path).length
      by omega]
    rfl
  have heq := hbuf.trans (endLoop_eq h0' _)
  refine ⟨⟨_, congrArg Prod.fst heq⟩, congrArg Prod.snd heq, ?_⟩
  rw [hbuf, length_endLoop, List.length_append, List.length_replicate]
  omega

/-- The elements are as many components as there are slashes, or the only one. -/
theorem pathCount_eq (h0 : 0 ∉ path) (hpath : path ≠ []) :
  pathCount path = if path.head? = some slashChar ∨ slashChar ∉ path
    then (components (unrooted path)).length else (components (unrooted path)).length - 1
  := by
  obtain ⟨-, hcount, -⟩ := pathBuf_eq h0
  have hlen : path.length ≠ 0 := by
    intro h
    apply hpath (List.length_eq_zero_iff.mp h)
  rw [pathCount, hcount, length_components]
  by_cases hroot : path.head? = some slashChar
  · simp only [hroot, ↓reduceIte, true_or]
    rw [if_neg (by omega)]
    omega
  · have hsame : unrooted path = path := if_neg hroot
    simp only [hroot, ↓reduceIte, false_or, hsame]
    by_cases hmem : slashChar ∈ path
    · have hpos := List.count_pos_iff.mpr hmem
      rw [if_neg (by omega), if_neg (not_not_intro hmem)]
      omega
    · rw [List.count_eq_zero.mpr hmem, if_pos (by simp [hlen]), if_pos hmem]

/-- The elements of the path `p`, joined with slashes, give back the text of the path, and lie
inside the buffer that it was given. -/
structure Splits (path : Name) (p : Path) : Prop where
  joined : (if path.head? = some slashChar then [slashChar] else [])
    ++ List.intercalate [slashChar] p.names = path
  inside : ∀ c ∈ p.elems, c + (cstr (p.buf.drop c)).length < path.length + 1

theorem length_intercalate_concat {names : List Name} (h : names ≠ []) (a : Name) :
  (List.intercalate [slashChar] (names ++ [a])).length
    = (List.intercalate [slashChar] names).length + 1 + a.length
  := by
  induction names with
  | nil => apply absurd rfl h
  | cons b names ih =>
      cases names with
      | nil =>
          rw [List.singleton_append, List.intercalate_cons_cons, List.intercalate_singleton,
            List.intercalate_singleton]
          simp only [List.length_append, List.length_singleton]
      | cons d names =>
          have ih := ih (List.cons_ne_nil d names)
          rw [List.cons_append, List.cons_append, List.intercalate_cons_cons,
            List.intercalate_cons_cons, ← List.cons_append]
          simp only [List.length_append, List.length_singleton] at ih ⊢
          omega

/-- Without its last one, the components do not give back a text that has two. -/
theorem intercalate_take_ne {c : List Byte} (h : slashChar ∈ c) :
  List.intercalate [slashChar] ((components c).take ((components c).length - 1)) ≠ c
  := by
  have hlen := length_components c
  have hpos := List.count_pos_iff.mpr h
  have hne : components c ≠ [] := List.splitOn_ne_nil slashChar c
  have hdrop : (components c).dropLast ≠ [] := by
    intro hnil
    have := congrArg List.length hnil
    rw [List.length_dropLast, List.length_nil] at this
    omega
  have hjoin : List.intercalate [slashChar] (components c) = c := List.intercalate_splitOn _
  have hlast := length_intercalate_concat hdrop ((components c).getLast hne)
  rw [List.dropLast_append_getLast, hjoin] at hlast
  rw [← List.dropLast_eq_take]
  intro heq
  rw [heq] at hlast
  omega

/-- Splitting a path and joining it again gives back exactly the absolute paths and those without a
slash. -/
theorem mkPath_splits_iff (h0 : 0 ∉ path) (hpath : path ≠ []) (hg : H.grants H.next = true)
    (hg' : H.grants (H.next + 1) = true) :
  Returns H (mkPath path) (fun r _ => ∃ p, r = some p ∧ Splits path p)
    ↔ path.head? = some slashChar ∨ slashChar ∉ path
  := by
  obtain ⟨⟨k, hbuf⟩, -, hlen⟩ := pathBuf_eq h0
  have hcount := pathCount_eq h0 hpath
  have hspec := unrooted_spec path
  have hle : pathCount path ≤ (components (unrooted path)).length := by
    rw [hcount]
    split
    · apply Nat.le_refl
    · apply Nat.sub_le
  have h0' : 0 ∉ unrooted path := by
    intro hmem
    apply h0
    rw [← hspec]
    apply List.mem_append_right _ hmem
  obtain ⟨hnames, hinside⟩ := elemsLoop_ended (zero_notMem_components h0') hle []
    (List.replicate k 0)
  rw [List.nil_append, ← hbuf] at hnames hinside
  rw [hlen] at hinside
  constructor
  · rintro ⟨_, _, hrun, p, rfl, hsplits⟩
    rw [mkPath_done hg hg'] at hrun
    cases hrun
    by_contra hno
    have hjoined := hsplits.joined
    rw [if_neg hno] at hcount
    rw [not_or, not_not] at hno
    have hsame : unrooted path = path := if_neg hno.1
    rw [if_neg hno.1, List.nil_append, Path.names] at hjoined
    dsimp only at hjoined
    rw [List.length_nil] at hnames
    rw [hnames, hcount, hsame] at hjoined
    apply intercalate_take_ne hno.2 hjoined
  · intro hyes
    refine ⟨_, _, mkPath_done hg hg', _, rfl, ?_, hinside⟩
    rw [if_pos hyes] at hcount
    rw [Path.names]
    dsimp only
    rw [List.length_nil] at hnames
    rw [hnames, hcount, List.take_length, components, List.intercalate_splitOn]
    apply hspec

/-- The path `/dev/adc`. -/
theorem mkPath_splits_iff_adc :
  Returns freshHeap (mkPath (text "/dev/adc"))
      (fun r _ => ∃ p, r = some p ∧ Splits (text "/dev/adc") p)
    ↔ (text "/dev/adc").head? = some slashChar ∨ slashChar ∉ text "/dev/adc"
  := mkPath_splits_iff (by decide) (by decide) rfl rfl

/-- The path `a/b` loses its last component. -/
theorem mkPath_not_splits :
  ¬ Returns freshHeap (mkPath (text "a/b")) fun r _ => ∃ p, r = some p ∧ Splits (text "a/b") p
  := by
  rintro ⟨_, _, hrun, p, rfl, hsplits⟩
  rw [mkPath_done rfl rfl] at hrun
  cases hrun
  have hjoined := hsplits.joined
  revert hjoined
  decide

end Dev
