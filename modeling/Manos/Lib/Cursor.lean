import Mathlib.Data.List.Infix

/-!
# Lists that are read in parts

A reader of a list goes on where it stopped.  Each call has a size, and `f n l` is the part of the
rest `l` that a call of size `n` takes.  If a call always takes something while there is something
left, then the parts are the list, in its order and without repetitions, and the calls behind them
take nothing.
-/

namespace Cursor

variable {α : Type} {f : ℕ → List α → List α} {l l₀ : List α} {n : ℕ} {ns : List ℕ}

/-- The parts that calls of the sizes `ns` take, one after the other. -/
def chunks (f : ℕ → List α → List α) : List ℕ → List α → List (List α)
  | [], _ => []
  | n :: ns, l => f n l :: chunks f ns (l.drop (f n l).length)

theorem chunks_cons (n : ℕ) (ns : List ℕ) (l : List α) :
  chunks f (n :: ns) l = f n l :: chunks f ns (l.drop (f n l).length)
  := rfl

theorem length_chunks (ns : List ℕ) (l : List α) :
  (chunks f ns l).length = ns.length
  := by
  induction ns generalizing l with
  | nil => rfl
  | cons n ns ih => rw [chunks, List.length_cons, List.length_cons, ih]

/-- Each part is what a call takes of some rest. -/
theorem getElem?_chunks {i : ℕ} {c : List α} (hc : (chunks f ns l)[i]? = some c)
    (hn : ns[i]? = some n) :
  ∃ r, f n r = c
  := by
  induction ns generalizing l i with
  | nil => cases hn
  | cons m ns ih =>
      cases i with
      | zero =>
          cases hn
          exact ⟨l, Option.some.inj hc⟩
      | succ i => exact ih hc hn

/-- A call of size `n` takes a part from the start of the rest, and not nothing. -/
def Advances (f : ℕ → List α → List α) (n : ℕ) (l₀ : List α) : Prop :=
  ∀ l, l <:+ l₀ → f n l <+: l ∧ (f n l = [] → l = [])

theorem Advances.suffix (h : Advances f n l₀) (hl : l <:+ l₀) :
  Advances f n l
  := fun l' hl' => h l' (hl'.trans hl)

/-- A call takes the start of the rest. -/
theorem Advances.append_drop (h : Advances f n l) :
  f n l ++ l.drop (f n l).length = l
  := List.prefix_iff_eq_append.mp (h l List.suffix_rfl).1

/-- The parts are a part from the start of the list. -/
theorem flatten_chunks_isPrefix (h : ∀ n ∈ ns, Advances f n l) :
  (chunks f ns l).flatten <+: l
  := by
  induction ns generalizing l with
  | nil => apply List.nil_prefix
  | cons n ns ih =>
      have hn := h n List.mem_cons_self
      have hrest := ih fun m hm =>
        (h m (List.mem_cons_of_mem n hm)).suffix (List.drop_suffix (f n l).length l)
      rw [chunks_cons, List.flatten_cons]
      conv_rhs => rw [← hn.append_drop]
      exact (List.prefix_append_right_inj _).mpr hrest

/-- A call takes nothing exactly when the earlier ones took everything. -/
theorem getElem?_chunks_eq_nil_iff (h : ∀ n ∈ ns, Advances f n l) {i : ℕ} (hi : i < ns.length) :
  (chunks f ns l)[i]? = some [] ↔ ((chunks f ns l).take i).flatten = l
  := by
  induction ns generalizing l i with
  | nil => contradiction
  | cons n ns ih =>
      have hn := h n List.mem_cons_self
      rw [chunks_cons]
      cases i with
      | zero =>
          rw [List.getElem?_cons_zero, List.take_zero, List.flatten_nil, Option.some.injEq]
          refine ⟨fun hnil => ((hn l List.suffix_rfl).2 hnil).symm, ?_⟩
          rintro rfl
          exact List.prefix_nil.mp (hn [] List.suffix_rfl).1
      | succ i =>
          have hrest := ih (l := l.drop (f n l).length) (fun m hm =>
            (h m (List.mem_cons_of_mem n hm)).suffix (List.drop_suffix _ l))
            (Nat.lt_of_succ_lt_succ hi)
          rw [List.getElem?_cons_succ, List.take_succ_cons, List.flatten_cons, hrest]
          constructor
          · intro hr
            rw [hr, hn.append_drop]
          · intro hr
            exact List.append_cancel_left (hr.trans hn.append_drop.symm)

/-- As many calls as there are elements take everything. -/
theorem flatten_chunks_eq (h : ∀ n ∈ ns, Advances f n l) (hlen : l.length ≤ ns.length) :
  (chunks f ns l).flatten = l
  := by
  induction ns generalizing l with
  | nil =>
      rw [List.length_nil, Nat.le_zero] at hlen
      rw [List.length_eq_zero_iff.mp hlen]
      rfl
  | cons n ns ih =>
      have hn := h n List.mem_cons_self
      have hshort : (l.drop (f n l).length).length ≤ ns.length := by
        rw [List.length_drop]
        rw [List.length_cons] at hlen
        by_cases hnil : f n l = []
        · rw [(hn l List.suffix_rfl).2 hnil, List.length_nil]
          omega
        · have := List.length_pos_iff.mpr hnil
          omega
      have hrest := ih (fun m hm =>
        (h m (List.mem_cons_of_mem n hm)).suffix (List.drop_suffix (f n l).length l)) hshort
      rw [chunks_cons, List.flatten_cons, hrest, hn.append_drop]

end Cursor
