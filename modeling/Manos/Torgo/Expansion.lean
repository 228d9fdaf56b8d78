import Manos.Lib.CStr

/-!
# Expansion of variables

What a word of a command means: each reference `$name` stands for the value of the variable, and
a `$` that no name follows for nothing.
-/

namespace Torgo

/-- `'$'` -/
def dollar : Byte := 0x24

/-- `'&'` -/
def ampersand : Byte := 0x26

/-- A name starts with a letter or `'_'`. -/
def isNameStart (c : Byte) : Bool :=
  c = 0x5f ∨ (0x61 ≤ c ∧ c ≤ 0x7a) ∨ (0x41 ≤ c ∧ c ≤ 0x5a)

/-- A name goes on with a letter, `'_'` or a digit. -/
def isNameChar (c : Byte) : Bool :=
  c = 0x5f ∨ (0x61 ≤ c ∧ c ≤ 0x7a) ∨ (0x41 ≤ c ∧ c ≤ 0x5a) ∨ (0x30 ≤ c ∧ c ≤ 0x39)

theorem isNameChar_of_isNameStart {c : Byte} (h : isNameStart c = true) :
  isNameChar c = true
  := by
  simp only [isNameStart, isNameChar, decide_eq_true_eq] at h ⊢
  tauto

theorem isNameChar_dollar :
  isNameChar dollar = false
  := by decide

theorem isNameChar_zero :
  isNameChar 0 = false
  := by decide

/-- A name is at the start of the text. -/
def startsName (str : List Byte) : Bool := str.head?.any isNameStart

/-- The text is a name. -/
def IsName (n : List Byte) : Prop := startsName n = true ∧ ∀ c ∈ n, isNameChar c = true

/-- The text with the values of variables in place of the references to them. -/
def expandVars (value : List Byte → List Byte) : List Byte → List Byte
  | [] => []
  | c :: str =>
      if c ≠ dollar then c :: expandVars value str
      else if startsName str = true then
        value (str.takeWhile isNameChar) ++ expandVars value (str.dropWhile isNameChar)
      else expandVars value str
termination_by str => str.length
decreasing_by
  · exact Nat.lt_succ_self _
  · exact Nat.lt_succ_of_le (List.length_dropWhile_le _ _)
  · exact Nat.lt_succ_self _

section

variable {value : List Byte → List Byte} {c : Byte} {str n : List Byte}

@[simp]
theorem expandVars_nil :
  expandVars value [] = []
  := by
  rw [expandVars]

theorem expandVars_literal (hc : c ≠ dollar) :
  expandVars value (c :: str) = c :: expandVars value str
  := by
  rw [expandVars, if_pos hc]

theorem expandVars_reference (hstr : startsName str = true) :
  expandVars value (dollar :: str)
    = value (str.takeWhile isNameChar) ++ expandVars value (str.dropWhile isNameChar)
  := by
  rw [expandVars, if_neg (not_not.mpr rfl), if_pos hstr]

theorem expandVars_dollar (hstr : ¬ startsName str = true) :
  expandVars value (dollar :: str) = expandVars value str
  := by
  rw [expandVars, if_neg (not_not.mpr rfl), if_neg hstr]

/-! ### Words that expand to nothing -/

variable (value) in
/-- The text consists of `$` without a name and of references to variables without a value. -/
def Vanishes (str : List Byte) : Prop :=
  ∃ names : List (List Byte), str = names.flatMap (dollar :: ·)
    ∧ ∀ n ∈ names, n = [] ∨ IsName n ∧ value n = []

theorem startsName_takeWhile (h : startsName str = true) :
  startsName (str.takeWhile isNameChar) = true
  := by
  cases str with
  | nil => cases h
  | cons c str =>
      have hc : isNameStart c = true := h
      rw [List.takeWhile_cons_of_pos (isNameChar_of_isNameStart hc)]
      exact hc

/-- No name goes on behind references. -/
theorem head_flatMap_dollar (names : List (List Byte)) :
  ∀ c ∈ (names.flatMap (dollar :: ·)).head?, c = dollar
  := by
  cases names with
  | nil => simp
  | cons n names => simp [eq_comm]

/-- A name ends before a text that does not start with one of its characters. -/
theorem takeWhile_name {rest : List Byte} (hn : ∀ c ∈ n, isNameChar c = true)
    (hrest : ∀ c ∈ rest.head?, isNameChar c = false) :
  (n ++ rest).takeWhile isNameChar = n ∧ (n ++ rest).dropWhile isNameChar = rest
  := by
  rw [List.takeWhile_append_of_pos hn, List.dropWhile_append_of_pos hn]
  cases rest with
  | nil => simp
  | cons c rest =>
      have hc : ¬ isNameChar c = true := by
        rw [hrest c rfl]
        exact Bool.false_ne_true
      rw [List.takeWhile_cons_of_neg hc, List.dropWhile_cons_of_neg hc, List.append_nil]
      exact ⟨rfl, rfl⟩

/-- The words that expand to nothing. -/
theorem expandVars_eq_nil_iff (value : List Byte → List Byte) (str : List Byte) :
  expandVars value str = [] ↔ Vanishes value str
  := by
  constructor
  · intro h
    induction hlen : str.length using Nat.strongRec generalizing str with
    | ind k ih =>
        cases str with
        | nil => exact ⟨[], rfl, by simp⟩
        | cons c str =>
            by_cases hc : c = dollar
            · subst hc
              by_cases hstr : startsName str = true
              · rw [expandVars_reference hstr, List.append_eq_nil_iff] at h
                have hlt : (str.dropWhile isNameChar).length < k := by
                  rw [← hlen, List.length_cons]
                  exact Nat.lt_succ_of_le (List.length_dropWhile_le _ _)
                obtain ⟨names, hnames, hall⟩ := ih _ hlt _ h.2 rfl
                refine ⟨str.takeWhile isNameChar :: names, ?_, ?_⟩
                · rw [List.flatMap_cons, ← hnames, List.cons_append,
                    List.takeWhile_append_dropWhile]
                · intro n hn
                  rcases List.mem_cons.mp hn with rfl | hn
                  · exact .inr ⟨⟨startsName_takeWhile hstr, fun c hc => List.mem_takeWhile_imp hc⟩,
                      h.1⟩
                  · exact hall n hn
              · rw [expandVars_dollar hstr] at h
                have hlt : str.length < k := by
                  rw [← hlen]
                  exact Nat.lt_succ_self _
                obtain ⟨names, hnames, hall⟩ := ih _ hlt _ h rfl
                refine ⟨[] :: names, ?_, ?_⟩
                · rw [List.flatMap_cons, ← hnames, List.singleton_append]
                · intro n hn
                  rcases List.mem_cons.mp hn with rfl | hn
                  · exact .inl rfl
                  · exact hall n hn
            · rw [expandVars_literal hc] at h
              cases h
  · rintro ⟨names, rfl, hall⟩
    induction names with
    | nil => exact expandVars_nil
    | cons n names ih =>
        have hrest := ih fun m hm => hall m (List.mem_cons_of_mem _ hm)
        have hhead := head_flatMap_dollar names
        rw [List.flatMap_cons, List.cons_append]
        rcases hall n List.mem_cons_self with rfl | ⟨hname, hvalue⟩
        · rw [List.nil_append, expandVars_dollar, hrest]
          intro hstarts
          rw [startsName, Option.any_eq_true] at hstarts
          obtain ⟨c, hc, hstart⟩ := hstarts
          rw [hhead c hc] at hstart
          revert hstart
          decide
        · have hends : ∀ c ∈ (names.flatMap (dollar :: ·)).head?, isNameChar c = false := by
            intro c hc
            rw [hhead c hc, isNameChar_dollar]
          obtain ⟨htake, hdrop⟩ := takeWhile_name hname.2 hends
          have hstarts : startsName (n ++ names.flatMap (dollar :: ·)) = true := by
            obtain ⟨hname, -⟩ := hname
            cases n with
            | nil => cases hname
            | cons c n => exact hname
          rw [expandVars_reference hstarts, htake, hdrop, hvalue, hrest, List.append_nil]

end

/-! ### The arguments of a command -/

/-- Whether a command is to run in the background: its last argument ends in `'&'`, which is
removed from it. -/
def background (args : List (List Byte)) : Bool × List (List Byte) :=
  match args.getLast? with
  | none => (false, args)
  | some last =>
      if last.getLast? = some ampersand then (true, args.dropLast ++ [last.dropLast])
      else (false, args)

end Torgo
