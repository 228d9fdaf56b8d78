import Mathlib.Tactic.Common

/-!
# Transducers

A transducer reads symbols one at a time and may emit outputs at each of them.  What it
emits for a text, and the state in which it ends, does not depend on how the text is cut.
-/

/-- A machine over the states `σ` that reads symbols in `α` and emits outputs in `β`. -/
structure Transducer (σ α β : Type) where
  /-- the state after a symbol and what is emitted at it -/
  step : σ → α → σ × List β

namespace Transducer

variable {σ α β : Type} {t : Transducer σ α β} {s : σ} {a : α} {l l' : List α}

/-- The state after the symbols `l` and all that is emitted at them, in order. -/
def run (t : Transducer σ α β) (s : σ) : List α → σ × List β
  | [] => (s, [])
  | a :: l => ((t.run (t.step s a).1 l).1, (t.step s a).2 ++ (t.run (t.step s a).1 l).2)

@[simp]
theorem run_nil :
  t.run s [] = (s, [])
  := rfl

/-- A run over two texts goes through the state after the first one. -/
theorem run_append :
  t.run s (l ++ l') = ((t.run (t.run s l).1 l').1, (t.run s l).2 ++ (t.run (t.run s l).1 l').2)
  := by
  induction l generalizing s with
  | nil => rfl
  | cons a l ih =>
      rw [List.cons_append, run, ih, run, List.append_assoc]

/-- A run over one symbol. -/
theorem run_singleton :
  t.run s [a] = t.step s a
  := by
  rw [run, run_nil, List.append_nil]

/-- A symbol at which nothing is emitted is read before a run. -/
theorem run_cons_silent {s' : σ} (h : t.step s a = (s', [])) :
  t.run s (a :: l) = t.run s' l
  := by
  rw [run, h, List.nil_append]

/-- A text at which nothing is emitted is read before a run. -/
theorem run_append_silent {s' : σ} (h : t.run s l = (s', [])) :
  t.run s (l ++ l') = t.run s' l'
  := by
  rw [run_append, h, List.nil_append]

/-- A text at which nothing is emitted has no part at the start at which something is. -/
theorem run_silent_left (h : (t.run s (l ++ l')).2 = []) :
  (t.run s l).2 = []
  := by
  rw [run_append] at h
  exact (List.append_eq_nil_iff.mp h).1

/-! ### Where something is emitted -/

/-- Nothing is emitted before the last symbol. -/
def EmitsLast (t : Transducer σ α β) (s : σ) (l : List α) : Prop :=
  ∀ u v, l = u ++ v → v ≠ [] → (t.run s u).2 = []

theorem emitsLast_nil :
  t.EmitsLast s []
  := by
  rintro u v h hv
  exact absurd (List.append_eq_nil_iff.mp h.symm).2 hv

theorem emitsLast_singleton :
  t.EmitsLast s [a]
  := by
  rintro (_ | ⟨b, u⟩) v h hv
  · rfl
  · rw [List.cons_append] at h
    exact absurd (List.append_eq_nil_iff.mp (List.cons.inj h).2.symm).2 hv

/-- A symbol at which nothing is emitted may come first. -/
theorem EmitsLast.cons {s' : σ} (h : t.EmitsLast s' l) (ha : t.step s a = (s', [])) :
  t.EmitsLast s (a :: l)
  := by
  rintro (_ | ⟨b, u⟩) v hl hv
  · rfl
  · rw [List.cons_append] at hl
    obtain ⟨rfl, htail⟩ := List.cons.inj hl
    rw [run_cons_silent ha]
    exact h u v htail hv

end Transducer
