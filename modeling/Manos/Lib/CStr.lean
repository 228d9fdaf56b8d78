import Mathlib.Data.List.TakeWhile
import Mathlib.Tactic.Common

/-!
# C strings

A C string is the part of a memory before the first zero.
-/

/-- The bytes of a memory. -/
abbrev Byte : Type := BitVec 8

theorem zero_notMem_nil :
  (0 : Byte) ∉ []
  := List.not_mem_nil

/-- The C string at the start of a memory: the bytes before the first zero. -/
def cstr (mem : List Byte) : List Byte :=
  mem.takeWhile (· ≠ 0)

/-- A C string has no zero in it. -/
theorem zero_notMem_cstr (mem : List Byte) :
  0 ∉ cstr mem
  := by
  intro h
  simpa using List.mem_takeWhile_imp h

/-- A text without a zero is a C string. -/
theorem cstr_of_notMem {mem : List Byte} (h : 0 ∉ mem) :
  cstr mem = mem
  := by
  rw [cstr, List.takeWhile_eq_self_iff]
  intro b hb
  exact decide_eq_true fun h₀ => h (h₀ ▸ hb)

/-- The C string before a zero. -/
theorem cstr_append_zero {s rest : List Byte} (h : 0 ∉ s) :
  cstr (s ++ 0 :: rest) = s
  := by
  have hs : cstr s = s := cstr_of_notMem h
  rw [cstr, List.takeWhile_eq_self_iff] at hs
  rw [cstr, List.takeWhile_append_of_pos hs]
  simp

/-- A memory with a zero is its C string, a zero, and a rest. -/
theorem exists_eq_cstr_append {mem : List Byte} (h : 0 ∈ mem) :
  ∃ rest, mem = cstr mem ++ 0 :: rest
  := by
  obtain ⟨s, rest, rfl, hs⟩ := List.eq_append_cons_of_mem h
  use rest
  rw [cstr_append_zero hs]

/-- The bytes of a C string are followed by a zero. -/
theorem getElem?_length_cstr {mem : List Byte} (h : 0 ∈ mem) :
  mem[(cstr mem).length]? = some 0
  := by
  obtain ⟨rest, hrest⟩ := exists_eq_cstr_append h
  generalize cstr mem = s at hrest ⊢
  subst hrest
  simp

/-- The bytes of a C string are those of the memory, and none of them is zero. -/
theorem getElem?_of_lt_cstr {mem : List Byte} {j : ℕ} (hj : j < (cstr mem).length) :
  ∃ b ≠ 0, mem[j]? = some b
  := by
  refine ⟨(cstr mem)[j], ?_, ?_⟩
  · intro hzero
    apply zero_notMem_cstr mem
    rw [← hzero]
    apply List.getElem_mem
  · have hpre : cstr mem <+: mem := List.takeWhile_prefix _
    rw [hpre.getElem hj]
    apply List.getElem?_eq_getElem
