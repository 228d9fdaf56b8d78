import Manos.Fmt.Storing

/-!
# The text in the buffer

What the formatter stores, as a text behind the one that was stored before.
-/

namespace Fmt

open Exec

variable {s : Frame} {l l' : List Byte} {b : Byte} {n n' : ℕ}

/-- The characters that were stored. -/
def Frame.text (s : Frame) : List Byte := (List.range s.p).map s.buf

/-- The memory `buf` with the characters `l` from `p` on. -/
def overlay (buf : Nat → Byte) (p : Nat) (l : List Byte) : Nat → Byte :=
  fun j => if p ≤ j then l[j - p]?.getD (buf j) else buf j

theorem overlay_nil (buf : Nat → Byte) (p : Nat) :
  overlay buf p [] = buf
  := by
  funext j
  simp [overlay]

theorem overlay_cons (buf : Nat → Byte) (p : Nat) (b : Byte) (l : List Byte) :
  overlay (Function.update buf p b) (p + 1) l = overlay buf p (b :: l)
  := by
  funext j
  rw [overlay, overlay]
  rcases Nat.lt_trichotomy j p with hj | rfl | hj
  · rw [if_neg (by omega), if_neg (by omega), Function.update_of_ne (by omega)]
  · rw [if_neg (by omega), if_pos (Nat.le_refl _), Function.update_self, Nat.sub_self]
    rfl
  · rw [if_pos (show p + 1 ≤ j from hj), if_pos (Nat.le_of_lt hj),
      Function.update_of_ne (by omega), show j - p = j - (p + 1) + 1 by omega,
      List.getElem?_cons_succ]

theorem overlay_append (buf : Nat → Byte) (p : Nat) (l l' : List Byte) :
  overlay (overlay buf p l) (p + l.length) l' = overlay buf p (l ++ l')
  := by
  induction l generalizing buf p with
  | nil => rw [overlay_nil, List.length_nil, Nat.add_zero, List.nil_append]
  | cons b l ih =>
      rw [← overlay_cons, List.length_cons, ← Nat.add_assoc, Nat.add_right_comm, ih, overlay_cons,
        List.cons_append]

/-- The characters that are then in the memory. -/
theorem map_overlay (buf : Nat → Byte) (p : Nat) (l : List Byte) :
  (List.range (p + l.length)).map (overlay buf p l) = (List.range p).map buf ++ l
  := by
  rw [List.range_add, List.map_append, List.map_map]
  congr 1
  · apply List.map_congr_left
    intro j hj
    rw [overlay, if_neg (Nat.not_le.mpr (List.mem_range.mp hj))]
  · apply List.ext_getElem
    · simp
    · intro i h₁ h₂
      simp [overlay, h₂]

/-- The state after the characters `l` were stored, when the remaining space is `n`. -/
def Frame.wrote (l : List Byte) (n : Nat) (s : Frame) : Frame :=
  { s with buf := overlay s.buf s.p l, p := s.p + l.length, n := n }

theorem Frame.wrote_cons {m : Nat} :
  { s with buf := Function.update s.buf s.p b, p := s.p + 1, n := m }.wrote l n
    = s.wrote (b :: l) n
  := by
  simp only [wrote, overlay_cons, List.length_cons, Nat.add_assoc, Nat.add_comm 1]

theorem put_apply (h : s.p < s.size) :
  put b s = .done () { s with buf := Function.update s.buf s.p b, p := s.p + 1 }
  := by
  rw [put, store]
  simp [bind_apply, h]

theorem putAll_wrote (h : s.p + l.length ≤ s.size) :
  putAll l s = .done () (s.wrote l s.n)
  := by
  induction l generalizing s with
  | nil =>
      rw [Frame.wrote, overlay_nil]
      rfl
  | cons b l ih =>
      rw [List.length_cons] at h
      rw [putAll, bind_done (put_apply (by omega)), ih, ← @Frame.wrote_cons s l b _ s.n]
      dsimp only
      omega

theorem Frame.wrote_wrote :
  (s.wrote l n).wrote l' n' = s.wrote (l ++ l') n'
  := by
  simp only [wrote, overlay_append, List.length_append, Nat.add_assoc]

theorem Frame.wrote_nil :
  s.wrote [] s.n = s
  := by
  rw [wrote, overlay_nil]
  rfl

/-- The end of the text is stored behind it. -/
theorem store_text (h : s.p < s.size) :
  Returns s (store 0) fun _ q => q.p = s.p ∧ q.text = s.text ∧ q.buf s.p = 0
  := by
  refine ⟨(), { s with buf := Function.update s.buf s.p 0 }, ?_, rfl, ?_, Function.update_self ..⟩
  · rw [store, bind_done (get_apply s), if_pos h]
    rfl
  · apply List.map_congr_left
    intro j hj
    exact Function.update_of_ne (Nat.ne_of_lt (List.mem_range.mp hj)) _ _

/-- The length of the text in the buffer. -/
theorem strlen_cstr {mem : List Byte} (h : 0 ∈ mem) (hbuf : s.buf = fun i => mem.getD i 0)
    (hsize : s.size = mem.length) :
  strlen s = .done (cstr mem).length s
  := by
  have hend := getElem?_length_cstr h
  have hfind : ((List.range s.size).find? fun i => s.buf i = 0) = some (cstr mem).length := by
    rw [List.find?_range_eq_some, hsize, hbuf]
    refine ⟨?_, ?_, ?_⟩
    · rw [decide_eq_true_eq]
      change mem.getD _ 0 = 0
      rw [List.getD_eq_getElem?_getD, hend]
      rfl
    · rw [List.mem_range]
      apply (List.getElem?_eq_some_iff.mp hend).1
    · intro j hj
      obtain ⟨b, hb, hget⟩ := getElem?_of_lt_cstr hj
      rw [Bool.not_eq_true', decide_eq_false_iff_not]
      change mem.getD j 0 ≠ 0
      rw [List.getD_eq_getElem?_getD, hget]
      exact hb
  rw [strlen, bind_done (get_apply s), hfind]
  rfl

end Fmt
