import Mathlib.Algebra.GroupWithZero.Nat
import Mathlib.Data.List.Nodup
import Mathlib.Tactic.Common

/-!
# Tilings of an interval

A list of pieces, each with a start and a size, tiles an interval when the pieces lie one
after the other from one end of it to the other.  The pieces of a tiling are apart, every
piece that is not at an end has a neighbour there, and a piece may be replaced by pieces
that tile it.
-/

namespace Tiling

variable {α : Type} {start size : α → Nat} {lo hi : Nat} {l : List α}

variable (start size) in
/-- The pieces `l` lie one after the other from `lo` to `hi`. -/
def Tiles : Nat → Nat → List α → Prop
  | lo, hi, [] => lo = hi
  | lo, hi, c :: l => start c = lo ∧ Tiles (lo + size c) hi l

/-- Two tilings of adjacent intervals make a tiling. -/
theorem Tiles.append {mid : Nat} {l₁ l₂ : List α} (h₁ : Tiles start size lo mid l₁)
    (h₂ : Tiles start size mid hi l₂) :
  Tiles start size lo hi (l₁ ++ l₂)
  := by
  induction l₁ generalizing lo with
  | nil =>
      rw [show lo = mid from h₁]
      apply h₂
  | cons c l₁ ih =>
      obtain ⟨hc, h₁⟩ := h₁
      refine ⟨hc, ih h₁⟩

theorem Tiles.le (h : Tiles start size lo hi l) :
  lo ≤ hi
  := by
  induction l generalizing lo with
  | nil => apply Nat.le_of_eq h
  | cons c l ih =>
      have := ih h.2
      omega

/-- The pieces lie in the interval. -/
theorem Tiles.bounds (h : Tiles start size lo hi l) {c : α} (hc : c ∈ l) :
  lo ≤ start c ∧ start c + size c ≤ hi
  := by
  induction l generalizing lo with
  | nil => cases hc
  | cons d l ih =>
      obtain ⟨hd, h⟩ := h
      rcases List.mem_cons.mp hc with rfl | hc
      · have := h.le
        omega
      · have := ih h hc
        omega

/-- Different pieces are apart. -/
theorem Tiles.apart (h : Tiles start size lo hi l) {c d : α} (hc : c ∈ l) (hd : d ∈ l)
    (hne : c ≠ d) :
  start c + size c ≤ start d ∨ start d + size d ≤ start c
  := by
  induction l generalizing lo with
  | nil => cases hc
  | cons e l ih =>
      obtain ⟨he, h⟩ := h
      rcases List.mem_cons.mp hc with rfl | hc' <;> rcases List.mem_cons.mp hd with rfl | hd'
      · apply absurd rfl hne
      · have := (h.bounds hd').1
        left
        omega
      · have := (h.bounds hc').1
        right
        omega
      · apply ih h hc' hd'

/-- Pieces of a positive size that start at the same place are the same. -/
theorem Tiles.eq_of_start (h : Tiles start size lo hi l) (hpos : ∀ c ∈ l, 0 < size c) {c d : α}
    (hc : c ∈ l) (hd : d ∈ l) (heq : start c = start d) :
  c = d
  := by
  by_contra hne
  have hc0 := hpos c hc
  have hd0 := hpos d hd
  have := h.apart hc hd hne
  omega

/-- Pieces of a positive size are different. -/
theorem Tiles.nodup (h : Tiles start size lo hi l) (hpos : ∀ c ∈ l, 0 < size c) :
  l.Nodup
  := by
  induction l generalizing lo with
  | nil => apply List.nodup_nil
  | cons c l ih =>
      obtain ⟨hc, h⟩ := h
      apply List.nodup_cons.mpr
      refine ⟨?_, ih h fun d hd => hpos d (List.mem_cons_of_mem _ hd)⟩
      intro hmem
      have h₁ := (h.bounds hmem).1
      have h₂ := hpos c List.mem_cons_self
      omega

/-- A piece that does not start the interval follows another one. -/
theorem Tiles.exists_pred (h : Tiles start size lo hi l) {c : α} (hc : c ∈ l)
    (hne : start c ≠ lo) :
  ∃ d ∈ l, start d + size d = start c
  := by
  induction l generalizing lo with
  | nil => cases hc
  | cons d l ih =>
      obtain ⟨hd, h⟩ := h
      rcases List.mem_cons.mp hc with rfl | hc
      · apply absurd hd hne
      · by_cases hstart : start c = lo + size d
        · use d, List.mem_cons_self
          omega
        · obtain ⟨e, he, heq⟩ := ih h hc hstart
          use e, List.mem_cons_of_mem _ he

/-- A piece that does not end the interval is followed by another one. -/
theorem Tiles.exists_succ (h : Tiles start size lo hi l) {c : α} (hc : c ∈ l)
    (hne : start c + size c ≠ hi) :
  ∃ d ∈ l, start d = start c + size c
  := by
  induction l generalizing lo with
  | nil => cases hc
  | cons d l ih =>
      obtain ⟨hd, h⟩ := h
      rcases List.mem_cons.mp hc with rfl | hc
      · cases l with
        | nil =>
            have : lo + size c = hi := h
            omega
        | cons e l =>
            use e, by simp
            have := h.1
            omega
      · obtain ⟨e, he, heq⟩ := ih h hc
        use e, List.mem_cons_of_mem _ he

/-- Pieces of at least `k` are at most as many as `k` goes into the interval. -/
theorem Tiles.length_le (h : Tiles start size lo hi l) {k : Nat} (hk : ∀ c ∈ l, k ≤ size c) :
  lo + k * l.length ≤ hi
  := by
  induction l generalizing lo with
  | nil =>
      have : lo = hi := h
      simp [this]
  | cons c l ih =>
      have h₁ := ih h.2 (fun d hd => hk d (List.mem_cons_of_mem _ hd))
      have h₂ := hk c List.mem_cons_self
      rw [List.length_cons, Nat.mul_succ]
      omega

/-- Some of the pieces are not larger than the interval. -/
theorem Tiles.sum_le (h : Tiles start size lo hi l) (p : α → Bool) :
  lo + ((l.filter p).map size).sum ≤ hi
  := by
  induction l generalizing lo with
  | nil =>
      have : lo = hi := h
      simp [this]
  | cons c l ih =>
      have hle := ih h.2
      rw [List.filter_cons]
      split
      · rw [List.map_cons, List.sum_cons]
        omega
      · omega

/-! ### Replacing a piece -/

variable [DecidableEq α]

/-- The list `l` with the pieces `cs` in place of `c`. -/
def replace (c : α) (cs l : List α) : List α := l.flatMap fun d => if d = c then cs else [d]

theorem mem_replace {c x : α} {cs : List α} :
  x ∈ replace c cs l ↔ (x ∈ l ∧ x ≠ c) ∨ (c ∈ l ∧ x ∈ cs)
  := by
  rw [replace, List.mem_flatMap]
  constructor
  · rintro ⟨d, hd, hx⟩
    by_cases hdc : d = c
    · subst hdc
      rw [if_pos rfl] at hx
      right
      apply And.intro hd hx
    · rw [if_neg hdc, List.mem_singleton] at hx
      subst hx
      left
      apply And.intro hd hdc
  · rintro (⟨hx, hne⟩ | ⟨hc, hx⟩)
    · refine ⟨x, hx, ?_⟩
      rw [if_neg hne]
      apply List.mem_singleton_self
    · refine ⟨c, hc, ?_⟩
      rw [if_pos rfl]
      apply hx

/-- A piece that was replaced by a new one and takes its place again. -/
theorem replace_replace {c d : α} (hd : d ∉ l) :
  replace d [c] (replace c [d] l) = l
  := by
  induction l with
  | nil => rfl
  | cons e l ih =>
      rw [List.mem_cons, not_or] at hd
      obtain ⟨hne, hd⟩ := hd
      have hrest : replace c [d] (e :: l) = (if e = c then [d] else [e]) ++ replace c [d] l := rfl
      have happ : ∀ l₁ l₂ : List α, replace d [c] (l₁ ++ l₂) = replace d [c] l₁ ++ replace d [c] l₂ :=
        fun l₁ l₂ => List.flatMap_append
      rw [hrest, happ, ih hd]
      by_cases hec : e = c
      · rw [if_pos hec, hec]
        simp [replace]
      · rw [if_neg hec]
        simp [replace, Ne.symm hne]

/-- Pieces that tile a piece of a tiling may take its place. -/
theorem Tiles.replace (h : Tiles start size lo hi l) {c : α} {cs : List α}
    (hcs : Tiles start size (start c) (start c + size c) cs) :
  Tiles start size lo hi (replace c cs l)
  := by
  induction l generalizing lo with
  | nil => apply h
  | cons d l ih =>
      obtain ⟨hd, h⟩ := h
      rw [Tiling.replace, List.flatMap_cons]
      split
      case isTrue heq =>
        subst heq
        subst hd
        apply hcs.append (ih h)
      case isFalse =>
        refine ⟨hd, ih h⟩

end Tiling
