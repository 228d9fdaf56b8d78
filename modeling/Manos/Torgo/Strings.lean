import Manos.Lib.CStr

/-!
# Strings of the shell

The comparison of strings in `string.c`.  It looks at how far the pointer into the first string
has moved, which it does past the first difference, too.
-/

namespace Torgo

/-- `String`: the bytes before the zero, whose number is the field `size` -/
structure DString where
  bytes : List Byte
  nonzero : 0 ∉ bytes
deriving DecidableEq

namespace DString

/-- `size` -/
def size (a : DString) : ℕ := a.bytes.length

/-- The memory that `str` points to. -/
def str (a : DString) : List Byte := a.bytes ++ [0]

theorem ext_bytes {a b : DString} (h : a.bytes = b.bytes) :
  a = b
  := by
  cases a
  cases b
  cases h
  rfl

end DString

/-- The loop of `matchString`: how far `aptr` is moved, if no byte outside of the strings is read -/
def matchLoop : List Byte → List Byte → Option ℕ
  | [], _ => none
  | x :: as, bs =>
      if x = 0 then some 0
      else
        match bs with
        | [] => none
        | y :: bs => if x = y then (matchLoop as bs).map (· + 1) else some 1

/-- `matchString` -/
def matchString (a b : DString) : Option Bool :=
  if a.size ≠ b.size then some false
  else (matchLoop a.str b.str).map fun n => n = a.size

/-- The strings have the same length and the same bytes but for the last one. -/
def AgreeBeforeLast (a b : DString) : Prop :=
  a.bytes.length = b.bytes.length ∧ a.bytes.dropLast = b.bytes.dropLast

instance (a b : DString) : Decidable (AgreeBeforeLast a b) := inferInstanceAs (Decidable (_ ∧ _))

/-- The loop goes through strings that agree before the last byte, and to the first difference
of others. -/
theorem matchLoop_eq {as bs : List Byte} (has : 0 ∉ as) (hlen : as.length = bs.length) :
  ∃ n, matchLoop (as ++ [0]) (bs ++ [0]) = some n ∧ n ≤ as.length
    ∧ (n = as.length ↔ as.dropLast = bs.dropLast)
  := by
  induction as generalizing bs with
  | nil =>
      obtain rfl := List.length_eq_zero_iff.mp hlen.symm
      exact ⟨0, rfl, le_refl 0, by simp⟩
  | cons x as ih =>
      obtain ⟨y, bs, rfl⟩ := List.exists_cons_of_length_pos
        (Nat.lt_of_lt_of_eq (Nat.succ_pos as.length) hlen)
      rw [List.mem_cons, not_or] at has
      rw [List.length_cons, List.length_cons, Nat.succ_inj] at hlen
      rw [List.cons_append, List.cons_append, matchLoop, if_neg (Ne.symm has.1), List.length_cons]
      cases as with
      | nil =>
          obtain rfl := List.length_eq_zero_iff.mp hlen.symm
          refine ⟨1, ?_, le_refl 1, by simp⟩
          by_cases hxy : x = y
          · rw [if_pos hxy]
            rfl
          · rw [if_neg hxy]
      | cons z as =>
          obtain ⟨w, bs, rfl⟩ := List.exists_cons_of_length_pos
            (Nat.lt_of_lt_of_eq (Nat.succ_pos as.length) hlen)
          rw [List.dropLast_cons_cons, List.dropLast_cons_cons, List.cons.injEq]
          by_cases hxy : x = y
          · obtain ⟨n, hn, hle, hiff⟩ := ih has.2 hlen
            refine ⟨n + 1, ?_, Nat.succ_le_succ hle, ?_⟩
            · rw [if_pos hxy, hn]
              rfl
            · rw [Nat.succ_inj, hiff]
              simp [hxy]
          · refine ⟨1, if_neg hxy, Nat.le_add_left 1 _, ?_⟩
            simp [hxy]

/-- The comparison stays in the strings; it tells that they agree before the last byte. -/
theorem matchString_eq (a b : DString) :
  matchString a b = some (decide (AgreeBeforeLast a b))
  := by
  rw [matchString]
  by_cases hlen : a.size = b.size
  · obtain ⟨n, hn, -, hiff⟩ := matchLoop_eq a.nonzero hlen
    rw [if_neg (not_not.mpr hlen), DString.str, DString.str, hn, Option.map_some]
    congr 1
    rw [decide_eq_decide]
    exact ⟨fun h => ⟨hlen, hiff.mp h⟩, fun h => hiff.mpr h.2⟩
  · rw [if_pos hlen]
    congr 1
    symm
    rw [decide_eq_false_iff_not]
    exact fun h => hlen h.1

/-- The comparison says that the strings are the same. -/
def Matches (a b : DString) : Prop := matchString a b = some true

instance (a b : DString) : Decidable (Matches a b) := inferInstanceAs (Decidable (_ = _))

theorem matches_iff {a b : DString} :
  Matches a b ↔ AgreeBeforeLast a b
  := by
  rw [Matches, matchString_eq, Option.some.injEq, decide_eq_true_iff]

theorem matchString_eq_matches (a b : DString) :
  matchString a b = some (decide (Matches a b))
  := by
  rw [matchString_eq, Option.some.injEq, decide_eq_decide, matches_iff]

end Torgo
