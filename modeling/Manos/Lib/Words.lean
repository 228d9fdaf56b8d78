import Mathlib.Data.List.TakeWhile
import Mathlib.Tactic.Common

/-!
# Words of a line

A line is the start of a text, up to a character that ends it.  Its words are separated by blanks;
a word is given by the text from its first character on, as a pointer into the text is.
-/

namespace Words

variable {α : Type} (blank stop : α → Bool)

/-- The line at the start of a text -/
def line (l : List α) : List α := l.takeWhile fun b => !stop b

/-- The text from the end of its first line on -/
def behind (l : List α) : List α := l.dropWhile fun b => !stop b

/-- The character belongs to a word. -/
def inWord (b : α) : Bool := !blank b && !stop b

/-- The words of a line, where the first one may start at once if `start` holds -/
def wordsFrom : Bool → List α → List (List α)
  | _, [] => []
  | start, b :: l =>
      if stop b then []
      else if blank b then wordsFrom true l
      else if start then (b :: l) :: wordsFrom false l
      else wordsFrom false l

/-- The words of a line -/
def words (l : List α) : List (List α) := wordsFrom blank stop true l

/-- The characters of a word, of the text from its first character on -/
def own (t : List α) : List α := t.takeWhile (inWord blank stop)

variable {blank stop} {b : α} {l p t w : List α}

theorem inWord_iff :
  inWord blank stop b = true ↔ blank b = false ∧ stop b = false
  := by
  simp [inWord]

/-- Where the line ends there are no words. -/
theorem words_stop (h : stop b = true) :
  words blank stop (b :: l) = []
  := if_pos h

theorem words_blank (hb : blank b = true) (hs : stop b = false) :
  words blank stop (b :: l) = words blank stop l
  := by
  rw [words, wordsFrom, if_neg (by rw [hs]; nofun), if_pos hb, words]

/-- Behind a character of a word the words go on behind the word. -/
theorem wordsFrom_false (l : List α) :
  wordsFrom blank stop false l = words blank stop (l.dropWhile (inWord blank stop))
  := by
  induction l with
  | nil => rfl
  | cons b l ih =>
      by_cases hs : stop b = true
      · have hin : ¬ inWord blank stop b = true := by simp [inWord, hs]
        rw [List.dropWhile_cons_of_neg hin, wordsFrom, if_pos hs, words_stop hs]
      · have hs' := eq_false_of_ne_true hs
        by_cases hb : blank b = true
        · have hin : ¬ inWord blank stop b = true := by simp [inWord, hb]
          rw [List.dropWhile_cons_of_neg hin, wordsFrom, if_neg hs, if_pos hb, words_blank hb hs',
            words]
        · have hin : inWord blank stop b = true := inWord_iff.mpr ⟨eq_false_of_ne_true hb, hs'⟩
          rw [List.dropWhile_cons_of_pos hin, wordsFrom, if_neg hs, if_neg hb, if_neg nofun, ih]

/-- A word at the start of a text -/
theorem words_word (h : inWord blank stop b = true) :
  words blank stop (b :: l) = (b :: l) :: words blank stop (l.dropWhile (inWord blank stop))
  := by
  obtain ⟨hb, hs⟩ := inWord_iff.mp h
  rw [words, wordsFrom, if_neg (by rw [hs]; nofun), if_neg (by rw [hb]; nofun), if_pos rfl,
    wordsFrom_false]

/-- Blanks at the start of a text are passed over. -/
theorem words_append (hp : ∀ b ∈ p, blank b = true ∧ stop b = false) :
  words blank stop (p ++ l) = words blank stop l
  := by
  induction p with
  | nil => rfl
  | cons b p ih =>
      rw [List.forall_mem_cons] at hp
      rw [List.cons_append, words_blank hp.1.1 hp.1.2, ih hp.2]

theorem dropWhile_word (ht : ∀ b ∈ t, inWord blank stop b = true)
    (hw : ∀ b ∈ w.head?, inWord blank stop b = false) :
  (t ++ w).dropWhile (inWord blank stop) = w
  := by
  rw [List.dropWhile_append_of_pos ht]
  cases w with
  | nil => rfl
  | cons b w =>
      rw [List.dropWhile_cons_of_neg]
      rw [hw b rfl]
      nofun

/-- Every word starts with one of its characters. -/
theorem exists_of_mem_words {start : Bool} (h : t ∈ wordsFrom blank stop start l) :
  ∃ b r, t = b :: r ∧ inWord blank stop b = true
  := by
  induction l generalizing start with
  | nil => cases h
  | cons b l ih =>
      rw [wordsFrom] at h
      split_ifs at h with hs hb hstart
      · cases h
      · exact ih h
      · rcases List.mem_cons.mp h with rfl | h
        · exact ⟨b, l, rfl, inWord_iff.mpr ⟨eq_false_of_ne_true hb, eq_false_of_ne_true hs⟩⟩
        · exact ih h
      · exact ih h

/-- A text that starts with the characters of a word -/
theorem words_word_append (ht : ∀ b ∈ t, inWord blank stop b = true) (hne : t ≠ [])
    (hw : ∀ b ∈ w.head?, inWord blank stop b = false) :
  words blank stop (t ++ w) = (t ++ w) :: words blank stop w
  := by
  obtain ⟨b, t, rfl⟩ := List.exists_cons_of_ne_nil hne
  rw [List.forall_mem_cons] at ht
  rw [List.cons_append, words_word ht.1, dropWhile_word ht.2 hw]

/-- A line without words has only blanks. -/
theorem words_eq_nil_iff :
  words blank stop l = [] ↔ ∀ b ∈ line stop l, blank b = true
  := by
  induction l with
  | nil => exact iff_of_true rfl nofun
  | cons b l ih =>
      by_cases hs : stop b = true
      · have hline : line stop (b :: l) = [] := List.takeWhile_cons_of_neg (by simp [hs])
        rw [hline]
        exact iff_of_true (words_stop hs) nofun
      · have hs' := eq_false_of_ne_true hs
        have hline : line stop (b :: l) = b :: line stop l :=
          List.takeWhile_cons_of_pos (by simp [hs'])
        rw [hline, List.forall_mem_cons]
        by_cases hb : blank b = true
        · rw [words_blank hb hs', ih, and_iff_right hb]
        · rw [words_word (inWord_iff.mpr ⟨eq_false_of_ne_true hb, hs'⟩)]
          exact iff_of_false nofun fun h => hb h.1

/-- The line goes on behind characters that do not end it. -/
theorem line_append (hp : ∀ b ∈ p, stop b = false) :
  line stop (p ++ l) = p ++ line stop l
  := by
  apply List.takeWhile_append_of_pos
  intro b hb
  rw [hp b hb]
  rfl

theorem behind_append (hp : ∀ b ∈ p, stop b = false) :
  behind stop (p ++ l) = behind stop l
  := by
  apply List.dropWhile_append_of_pos
  intro b hb
  rw [hp b hb]
  rfl

end Words
