import Mathlib.Data.List.Basic
import Mathlib.Data.List.Infix
import Mathlib.Tactic.Common

/-!
# Editing a line

A line is a list of characters.  Each key adds a character to its end, or removes the last one;
the key that removes is `none`.  What keys do to a line is determined by what is left of them when
each character is cancelled against the key that removes it: a number of removals, and the
characters that come after these.
-/

namespace Editing

variable {α : Type}

/-- The line after a key. -/
def press (line : List α) : Option α → List α
  | none => line.dropLast
  | some a => line ++ [a]

/-- The line after a sequence of keys. -/
def edit (line : List α) (keys : List (Option α)) : List α := keys.foldl press line

@[simp]
theorem edit_nil (line : List α) :
  edit line [] = line
  := rfl

@[simp]
theorem edit_cons (line : List α) (key : Option α) (keys : List (Option α)) :
  edit line (key :: keys) = edit (press line key) keys
  := rfl

theorem edit_append (line : List α) (keys keys' : List (Option α)) :
  edit line (keys ++ keys') = edit (edit line keys) keys'
  := List.foldl_append

theorem length_press_le (line : List α) (key : Option α) :
  (press line key).length ≤ line.length + 1
  := by
  cases key with
  | none =>
      rw [press, List.length_dropLast]
      omega
  | some a => rw [press, List.length_append, List.length_singleton]

/-- The characters of a line are those that it had, or were typed. -/
theorem mem_edit {line : List α} {keys : List (Option α)} {a : α} (h : a ∈ edit line keys) :
  a ∈ line ∨ some a ∈ keys
  := by
  induction keys generalizing line with
  | nil => exact .inl h
  | cons key keys ih =>
      rcases ih h with hline | hkeys
      · cases key with
        | none => exact .inl (List.dropLast_subset _ hline)
        | some b =>
            rcases List.mem_append.mp hline with hline | hb
            · exact .inl hline
            · rw [List.mem_singleton.mp hb]
              exact .inr List.mem_cons_self
      · exact .inr (List.mem_cons_of_mem _ hkeys)

/-! ### Cancellation -/

/-- What is left of keys after one more. -/
def cancel : ℕ × List α → Option α → ℕ × List α
  | (removals, []), none => (removals + 1, [])
  | (removals, b :: line), none => (removals, (b :: line).dropLast)
  | (removals, line), some a => (removals, line ++ [a])

/-- What is left of keys: a number of removals, and the characters after these. -/
def net (keys : List (Option α)) : ℕ × List α := keys.foldl cancel (0, [])

theorem net_append (keys : List (Option α)) (key : Option α) :
  net (keys ++ [key]) = cancel (net keys) key
  := List.foldl_concat ..

/-- Keys do to a line what is left of them does. -/
theorem edit_eq_net (line : List α) (keys : List (Option α)) :
  edit line keys = line.take (line.length - (net keys).1) ++ (net keys).2
  := by
  induction keys using List.reverseRecOn with
  | nil =>
      rw [edit_nil, net, List.foldl_nil, Nat.sub_zero, List.take_length, List.append_nil]
  | append_singleton keys key ih =>
      rw [edit_append, ih, net_append, edit_cons, edit_nil]
      generalize net keys = rest
      obtain ⟨removals, typed⟩ := rest
      cases key with
      | some a => rw [press, cancel, List.append_assoc]
      | none =>
          cases typed with
          | nil =>
              rw [press, cancel, List.append_nil, List.append_nil, List.dropLast_eq_take,
                List.length_take, List.take_take]
              congr 1
              omega
          | cons b typed =>
              rw [press, cancel, List.dropLast_append_of_ne_nil (List.cons_ne_nil b typed)]

/-- Keys leave a line as it is exactly if they type what they remove from it. -/
theorem edit_eq_self_iff {line : List α} {keys : List (Option α)} :
  edit line keys = line ↔ (net keys).2 = line.drop (line.length - (net keys).1)
  := by
  have hline := List.take_append_drop (line.length - (net keys).1) line
  rw [edit_eq_net]
  constructor
  · intro h
    exact List.append_cancel_left (h.trans hline.symm)
  · intro h
    rw [h, hline]

/-! ### Lines of bounded length -/

/-- The line after keys, of which none is pressed once there are `n` characters. -/
def fill (n : ℕ) (line : List α) : List (Option α) → List α
  | [] => line
  | key :: keys => if line.length = n then line else fill n (press line key) keys

/-- The line has `n` characters at the end of the keys, and had not before. -/
def Fills (n : ℕ) (line : List α) (keys : List (Option α)) : Prop :=
  (edit line keys).length = n ∧ ∀ u, u <+: keys → (edit line u).length = n → u = keys

section

variable {n : ℕ} {line : List α} {keys u v : List (Option α)}

/-- Keys fill a line once. -/
theorem Fills.eq (hu : Fills n line u) (hv : Fills n line v) (hukeys : u <+: keys)
    (hvkeys : v <+: keys) :
  u = v
  := by
  rcases List.prefix_or_prefix_of_prefix hukeys hvkeys with h | h
  · exact hv.2 u h hu.1
  · exact (hu.2 v h hv.1).symm

/-- If there are `n` characters at the start, no key is pressed. -/
theorem fills_nil (h : line.length = n) :
  Fills n line []
  := ⟨h, fun _ hu _ => List.prefix_nil.mp hu⟩

theorem Fills.cons {key : Option α} (hne : line.length ≠ n) (h : Fills n (press line key) u) :
  Fills n line (key :: u)
  := by
  refine ⟨h.1, ?_⟩
  intro v hv hlen
  cases v with
  | nil => exact absurd hlen hne
  | cons key' v =>
      obtain ⟨rfl, hprefix⟩ := List.cons_prefix_cons.mp hv
      rw [h.2 v hprefix hlen]

/-- Either all keys are pressed and the line never has `n` characters, or the keys are pressed that
fill it. -/
theorem fill_cases (n : ℕ) (line : List α) (keys : List (Option α)) :
  (fill n line keys = edit line keys ∧ ∀ u, u <+: keys → (edit line u).length ≠ n)
    ∨ ∃ u v, keys = u ++ v ∧ Fills n line u ∧ fill n line keys = edit line u
  := by
  induction keys generalizing line with
  | nil =>
      by_cases hn : line.length = n
      · exact .inr ⟨[], [], rfl, fills_nil hn, rfl⟩
      · refine .inl ⟨rfl, ?_⟩
        rintro u hu hlen
        rw [List.prefix_nil.mp hu] at hlen
        exact hn hlen
  | cons key keys ih =>
      by_cases hn : line.length = n
      · exact .inr ⟨[], key :: keys, rfl, fills_nil hn, by rw [fill, if_pos hn, edit_nil]⟩
      · rw [fill, if_neg hn]
        rcases ih (press line key) with ⟨hfill, hne⟩ | ⟨u, v, rfl, hu, hfill⟩
        · refine .inl ⟨hfill, ?_⟩
          intro u hu hlen
          cases u with
          | nil => exact hn hlen
          | cons key' u =>
              obtain ⟨rfl, hprefix⟩ := List.cons_prefix_cons.mp hu
              exact hne u hprefix hlen
        · exact .inr ⟨key :: u, v, rfl, hu.cons hn, hfill⟩

/-- A line does not become longer than it may be. -/
theorem length_fill_le (h : line.length ≤ n) :
  (fill n line keys).length ≤ n
  := by
  induction keys generalizing line with
  | nil => exact h
  | cons key keys ih =>
      rw [fill]
      split
      · exact h
      · have hpress := length_press_le line key
        exact ih (by omega)

end

end Editing
