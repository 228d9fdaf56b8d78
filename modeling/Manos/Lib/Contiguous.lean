import Mathlib.Data.List.Basic

/-!
# Elements that stand together

The elements of a list that satisfy a predicate stand together when whatever is between two of
them satisfies it too.  Such a list is cut into what comes before them, the elements themselves,
and what comes after them.
-/

namespace List

variable {α : Type} {P : α → Bool} {x y : α} {l : List α}

/-- The elements that satisfy `P` stand together. -/
def Contiguous (P : α → Bool) (l : List α) : Prop :=
  ∀ i j k (hij : i < j) (hjk : j < k) (hk : k < l.length), P l[i] → P l[k] → P l[j]

/-- Removing the first element of a list. -/
theorem Contiguous.tail (h : Contiguous P (x :: l)) :
  Contiguous P l
  := by
  intro i j k hij hjk hk hi hk'
  apply h (i + 1) (j + 1) (k + 1) (Nat.succ_lt_succ hij) (Nat.succ_lt_succ hjk)
    (Nat.succ_lt_succ hk) hi hk'

/-- What comes between the first element and another one that satisfies `P`. -/
theorem Contiguous.second (h : Contiguous P (x :: y :: l)) (hx : P x) (hl : ∃ z ∈ l, P z) :
  P y
  := by
  obtain ⟨z, hz, hPz⟩ := hl
  obtain ⟨k, hk, rfl⟩ := List.getElem_of_mem hz
  have hk' : k + 2 < (x :: y :: l).length := Nat.succ_lt_succ (Nat.succ_lt_succ hk)
  apply h 0 1 (k + 2) (Nat.zero_lt_succ 0) (by omega) hk' hx hPz

/-- The list is cut around the elements that satisfy `P`. -/
theorem Contiguous.cut (h : Contiguous P l) :
  ∃ pre post, l = pre ++ l.filter P ++ post ∧ (∀ z ∈ pre, P z = false) ∧
    ∀ z ∈ post, P z = false
  := by
  induction l with
  | nil => exact ⟨[], [], rfl, nofun, nofun⟩
  | cons x l ih =>
      obtain ⟨pre, post, hl, hpre, hpost⟩ := ih h.tail
      cases hx : P x with
      | false =>
          refine ⟨x :: pre, post, ?_, ?_, hpost⟩
          · rw [List.filter_cons_of_neg (by simp [hx])]
            exact congrArg (x :: ·) hl
          · intro z hz
            rcases List.mem_cons.mp hz with rfl | hz
            · apply hx
            · apply hpre z hz
      | true =>
          rw [List.filter_cons_of_pos hx]
          cases hf : l.filter P with
          | nil =>
              refine ⟨[], l, rfl, nofun, fun z hz => ?_⟩
              have hz' := List.filter_eq_nil_iff.mp hf z hz
              simpa using hz'
          | cons y cs =>
              rw [hf] at hl
              cases pre with
              | nil => exact ⟨[], post, congrArg (x :: ·) hl, nofun, hpost⟩
              | cons z pre =>
                  -- the element `z` would be between two that satisfy `P`
                  have hy : P y := (List.mem_filter.mp (hf ▸ List.mem_cons_self)).2
                  have hmem : y ∈ pre ++ y :: cs ++ post := by simp
                  rw [hl] at h
                  have hz : P z := h.second hx ⟨y, hmem, hy⟩
                  rw [hpre z List.mem_cons_self] at hz
                  cases hz

/-- Elements behind the first one of a list whose tail is pairwise related. -/
theorem rel_of_pairwise_tail {R : α → α → Prop} (h : l.tail.Pairwise R) {i j : ℕ} (hi : 0 < i)
    (hij : i < j) (hj : j < l.length) :
  R l[i] l[j]
  := by
  cases l with
  | nil => contradiction
  | cons x l =>
      obtain ⟨i, rfl⟩ := Nat.exists_eq_succ_of_ne_zero (Nat.ne_of_gt hi)
      obtain ⟨j, rfl⟩ := Nat.exists_eq_succ_of_ne_zero (Nat.ne_zero_of_lt hij)
      exact List.pairwise_iff_getElem.mp h i j _ _ (Nat.lt_of_succ_lt_succ hij)

end List
