import Manos.Torgo.Buffers

/-!
# Runs on a character buffer

A buffer from `mkCharBuf`, whatever is called on it and whichever requests for memory are refused,
against the string that the calls which did not fail leave.
-/

namespace Torgo.Buffers

open Exec

/-- The calls on a buffer, with whether a request for memory is granted. -/
inductive BufCall where
  | clear
  | append (c : Byte) (grant : Bool)
  | concat (str : CStr) (grant : Bool)
  | dropLast
  | isEmpty

/-- What the calls return. -/
inductive BufResult where
  | cleared
  | appended (c : Byte)
  | concatenated (ok : Bool)
  | dropped (c : Byte)
  | empty (b : Bool)
deriving DecidableEq, Repr

/-- A call of the functions of `charbuf.c`. -/
def BufCall.run : BufCall → Exec Ptr BufResult
  | clear => do
      clearCharBuf
      return .cleared
  | append c grant => do
      let c ← appendCharBuf c grant
      return .appended c
  | concat str grant => do
      let ok ← concatCharBuf str grant
      return .concatenated ok
  | dropLast => do
      let c ← dropLastCharBuf
      return .dropped c
  | isEmpty => do
      let b ← isEmptyCharBuf
      return .empty b

/-! ### Strings -/

/-- A string, and the number of bytes that are kept for it and for its zero. -/
structure Text where
  text : List Byte
  size : ℕ

namespace Text

/-- The bytes that are kept do not suffice for `n` more. -/
def NeedsRoom (t : Text) (n : ℕ) : Prop := t.size - t.text.length < n + 1

instance (t : Text) (n : ℕ) : Decidable (t.NeedsRoom n) := inferInstanceAs (Decidable (_ < _))

/-- The bytes that are needed for `n` more are refused. -/
def Refused (t : Text) (n : ℕ) (grant : Bool) : Prop :=
  t.NeedsRoom n ∧ ¬ (grant = true ∧ n + t.size * 2 < heapLimit)

instance (t : Text) (n : ℕ) (grant : Bool) : Decidable (t.Refused n grant) :=
  inferInstanceAs (Decidable (_ ∧ _))

/-- The string with the bytes `s` added. -/
def add (t : Text) (s : List Byte) : Text where
  text := t.text ++ s
  size := if t.NeedsRoom s.length then s.length + t.size * 2 else t.size

end Text

namespace BufCall

/-- The call fails: it would add to the string, and the memory for that is refused. -/
def Failed : BufCall → Text → Prop
  | append c grant, t => t.Refused (charStr c).bytes.length grant
  | concat str grant, t => t.Refused str.bytes.length grant
  | clear, _ => False
  | dropLast, _ => False
  | isEmpty, _ => False

instance (call : BufCall) (t : Text) : Decidable (call.Failed t) :=
  match call with
  | append _ _ => inferInstanceAs (Decidable (t.Refused _ _))
  | concat _ _ => inferInstanceAs (Decidable (t.Refused _ _))
  | clear => inferInstanceAs (Decidable False)
  | dropLast => inferInstanceAs (Decidable False)
  | isEmpty => inferInstanceAs (Decidable False)

/-- The string after a call that does not fail.  To append a zero adds nothing. -/
def applied : BufCall → Text → Text
  | clear, t => ⟨[], t.size⟩
  | append c _, t => t.add (charStr c).bytes
  | concat str _, t => t.add str.bytes
  | dropLast, t => ⟨t.text.dropLast, t.size⟩
  | isEmpty, t => t

end BufCall

/-- The calls on a string. -/
def stringSpec : Spec BufCall Text BufResult where
  result
    | .clear, _ => .cleared
    | .append c _, _ => .appended c
    | .concat str grant, t => .concatenated (¬ t.Refused str.bytes.length grant)
    | .dropLast, t => .dropped (t.text.getLastD 0)
    | .isEmpty, t => .empty (t.text = [])
  next call t := if call.Failed t then t else call.applied t

/-! ### Buffers hold strings -/

/-- The buffer that is pointed to holds the string `t`. -/
structure Holds (p : Ptr) (t : Text) : Prop where
  value : ∃ b : Torgo.CharBuf, p = .buf (ofValue b) ∧ b.text = t.text ∧ b.data.length = t.size
  fits : t.size < heapLimit

variable {p : Ptr} {t : Text} {b : Torgo.CharBuf}

theorem length_concat (b : Torgo.CharBuf) {str : CStr} :
  (Torgo.concatCharBuf b str.bytes).data.length
    = if b.data.length - b.used < str.bytes.length + 1 then str.bytes.length + b.data.length * 2
      else b.data.length
  := by
  have hlt := used_lt b
  have hused := b.length_text
  show (b.text ++ cstr str.bytes ++ 0 :: (b.room (cstr str.bytes).length).drop
    (b.used + (cstr str.bytes).length + 1)).length = _
  rw [cstr_of_notMem str.nonzero, List.length_append, List.length_append, List.length_cons,
    List.length_drop, Torgo.CharBuf.room, ← Torgo.CharBuf.text]
  split
  · rw [List.length_append, List.length_replicate]
    omega
  · omega

theorem length_dropLast (b : Torgo.CharBuf) :
  (Torgo.dropLastCharBuf b).2.data.length = b.data.length
  := by
  have hlt := used_lt b
  have hused := b.length_text
  rw [Torgo.dropLastCharBuf]
  split
  case isTrue => rfl
  case isFalse =>
    show (b.text.dropLast ++ 0 :: b.data.drop b.used).length = _
    rw [List.length_append, List.length_dropLast, List.length_cons, List.length_drop]
    omega

theorem dropLast_fst (b : Torgo.CharBuf) :
  (Torgo.dropLastCharBuf b).1 = b.text.getLastD 0
  := by
  rw [Torgo.dropLastCharBuf]
  split
  case isTrue h =>
    have hnil : b.text = [] := by rw [← List.length_eq_zero_iff, b.length_text, h]
    rw [hnil, List.getLastD_nil]
  case isFalse => rfl

/-- A string is added to what a buffer holds, unless the memory for it is refused. -/
theorem Holds.concat (h : Holds p t) (str : CStr) (grant : Bool) :
  (t.Refused str.bytes.length grant ∧ concatCharBuf str grant p = .done false p)
    ∨ (¬ t.Refused str.bytes.length grant ∧
      ∃ p', concatCharBuf str grant p = .done true p' ∧ Holds p' (t.add str.bytes))
  := by
  obtain ⟨⟨b, rfl, htext, hsize⟩, hfits⟩ := h
  have hused : t.text.length = b.used := by rw [← htext, b.length_text]
  have hneeds : t.NeedsRoom str.bytes.length ↔ b.data.length - b.used < str.bytes.length + 1 := by
    rw [Text.NeedsRoom, hsize, hused]
  rw [← hsize] at hfits
  by_cases hrefused : t.Refused str.bytes.length grant
  · left
    refine ⟨hrefused, ?_⟩
    rw [Text.Refused, hneeds, ← hsize] at hrefused
    apply concatCharBuf_refused hfits hrefused.1 hrefused.2
  · right
    refine ⟨hrefused, .buf (ofValue (Torgo.concatCharBuf b str.bytes)), ?_, ?_⟩
    · apply concatCharBuf_value hfits
      intro hlt
      rw [Text.Refused, hneeds, ← hsize] at hrefused
      exact not_not.mp fun hnot => hrefused ⟨hlt, hnot⟩
    · constructor
      · refine ⟨_, rfl, ?_, ?_⟩
        · rw [Torgo.CharBuf.text_concat, htext, cstr_of_notMem str.nonzero, Text.add]
        · simp only [length_concat, Text.add, hneeds, hsize]
      · rw [Text.add]
        split
        case isTrue hlt =>
          rw [Text.Refused] at hrefused
          exact (not_not.mp fun hnot => hrefused ⟨hlt, hnot⟩).2
        case isFalse => rwa [← hsize]

/-- The functions of `charbuf.c` are those of strings. -/
theorem refines :
  Refines Holds BufCall.run stringSpec
  := by
  intro call p t h
  cases call with
  | clear =>
      obtain ⟨⟨b, rfl, htext, hsize⟩, hfits⟩ := h
      apply Returns.step (clearCharBuf_value b)
      apply Returns.pure
      refine ⟨rfl, ⟨_, rfl, Torgo.CharBuf.text_clear, ?_⟩, hfits⟩
      have hlt := used_lt b
      rw [Torgo.clearCharBuf, Torgo.CharBuf.holding]
      simp only [List.nil_append, List.length_cons, List.length_tail]
      show b.data.length - 1 + 1 = t.size
      omega
  | append c grant =>
      rcases h.concat (charStr c) grant with ⟨hrefused, hrun⟩ | ⟨hgranted, p', hrun, hp'⟩
      · have happend : appendCharBuf c grant p = .done c p := bind_done hrun
        apply Returns.step happend
        apply Returns.pure
        refine ⟨rfl, ?_⟩
        have hfailed : (BufCall.append c grant).Failed t := hrefused
        rw [stringSpec]
        simp only [if_pos hfailed]
        exact h
      · have happend : appendCharBuf c grant p = .done c p' := bind_done hrun
        apply Returns.step happend
        apply Returns.pure
        refine ⟨rfl, ?_⟩
        have hfailed : ¬ (BufCall.append c grant).Failed t := hgranted
        rw [stringSpec]
        simp only [if_neg hfailed]
        exact hp'
  | concat str grant =>
      rcases h.concat str grant with ⟨hrefused, hrun⟩ | ⟨hgranted, p', hrun, hp'⟩
      · apply Returns.step hrun
        apply Returns.pure
        have hfailed : (BufCall.concat str grant).Failed t := hrefused
        simp only [stringSpec, if_pos hfailed, hrefused, not_true, decide_false, true_and]
        exact h
      · apply Returns.step hrun
        apply Returns.pure
        have hfailed : ¬ (BufCall.concat str grant).Failed t := hgranted
        simp only [stringSpec, if_neg hfailed, hgranted, not_false_iff, decide_true, true_and]
        exact hp'
  | dropLast =>
      obtain ⟨⟨b, rfl, htext, hsize⟩, hfits⟩ := h
      apply Returns.step (dropLastCharBuf_value b)
      apply Returns.pure
      refine ⟨?_, ⟨_, rfl, ?_, ?_⟩, hfits⟩
      · rw [dropLast_fst, htext, stringSpec]
      · rw [Torgo.CharBuf.text_dropLast, htext]
        rfl
      · rw [length_dropLast, hsize]
        rfl
  | isEmpty =>
      obtain ⟨⟨b, rfl, htext, hsize⟩, hfits⟩ := h
      apply Returns.step (isEmptyCharBuf_value b)
      apply Returns.pure
      refine ⟨?_, ⟨b, rfl, htext, hsize⟩, hfits⟩
      show BufResult.empty _ = .empty (decide (t.text = []))
      rw [← htext, BufResult.empty.injEq, Bool.eq_iff_iff, Torgo.CharBuf.isEmpty_iff, decide_eq_true_iff]

/-- A call that fails leaves the buffer as it was. -/
theorem Holds.run_failed (h : Holds p t) {call : BufCall} (hfailed : call.Failed t)
    {r : BufResult} {p' : Ptr} (hrun : call.run p = .done r p') :
  p' = p
  := by
  cases call with
  | clear => exact hfailed.elim
  | append c grant =>
      rcases h.concat (charStr c) grant with ⟨-, hconcat⟩ | ⟨hgranted, -⟩
      · have happend : appendCharBuf c grant p = .done c p := bind_done hconcat
        rw [BufCall.run, bind_done happend] at hrun
        cases hrun
        rfl
      · exact absurd hfailed hgranted
  | concat str grant =>
      rcases h.concat str grant with ⟨-, hconcat⟩ | ⟨hgranted, -⟩
      · rw [BufCall.run, bind_done hconcat] at hrun
        cases hrun
        rfl
      · exact absurd hfailed hgranted
  | dropLast => exact hfailed.elim
  | isEmpty => exact hfailed.elim

/-- What is in the memory of a buffer that holds a string. -/
theorem Holds.memory (h : Holds p t) :
  ∃ b : CharBuf, p = .buf b ∧ b.data.take b.used = t.text ∧ b.data[b.used]? = some 0
    ∧ b.used < b.size ∧ b.size = b.data.length
  := by
  obtain ⟨⟨b, rfl, htext, -⟩, -⟩ := h
  refine ⟨ofValue b, rfl, htext, ?_, used_lt b, rfl⟩
  obtain ⟨rest, hdata, -⟩ := exists_holding b
  rw [ofValue]
  dsimp only
  rw [hdata, ← b.length_text]
  simp

/-- Every call on a buffer that was freed follows a pointer to no buffer. -/
theorem run_freed (call : BufCall) :
  call.run .freed = .stop (.wild "buf") .freed
  := by
  cases call with
  | clear => rfl
  | append c grant => rfl
  | concat str grant => rfl
  | dropLast => rfl
  | isEmpty => rfl

/-- There is no buffer after calls on one that was freed. -/
theorem calls_freed {calls : List BufCall} {results : List BufResult} {p' : Ptr}
    (h : Exec.calls BufCall.run calls .freed = .done results p') :
  p' = .freed
  := by
  cases calls with
  | nil =>
      cases h
      rfl
  | cons call calls =>
      rw [Exec.calls, bind_stop (run_freed call)] at h
      cases h

/-! ### From the making of the buffer on -/

/-- A buffer for `size` bytes is made, or none; and whatever is called on it, with the requests for
memory granted or refused, it holds the string of the calls that did not fail, with a zero after it,
in its memory, and a call that fails leaves it as it was. -/
def RefinesString (size : ℕ) (grant grant' : Bool) (calls : List BufCall) : Prop :=
  Returns .null (mkCharBuf grant grant' size) fun _ p =>
    p = .null ∨ Returns p (Exec.calls BufCall.run calls) fun results p' =>
      results = stringSpec.results calls ⟨[], size⟩ ∧
        ∃ b : CharBuf, p' = .buf b
          ∧ b.data.take b.used = (stringSpec.after calls ⟨[], size⟩).text
          ∧ b.data[b.used]? = some 0 ∧ b.used < b.size ∧ b.size = b.data.length
          ∧ ∀ (call : BufCall) r p'', call.Failed (stringSpec.after calls ⟨[], size⟩) →
            call.run p' = .done r p'' → p'' = p'

/-- A buffer that was made holds the empty string. -/
theorem holds_mkCharBuf {size : ℕ} (hsize : 1 ≤ size) (hlt : size < heapLimit) :
  Holds (.buf (ofValue (Torgo.mkCharBuf size))) ⟨[], size⟩
  := by
  refine ⟨⟨_, rfl, Torgo.CharBuf.text_mkCharBuf size, ?_⟩, hlt⟩
  show ([] ++ 0 :: List.replicate (size - 1) (0 : Byte)).length = size
  rw [List.nil_append, List.length_cons, List.length_replicate]
  omega

/-- A buffer is a string exactly if the request for its data is granted when the one for the buffer
is. -/
theorem charBuf_refines_string_iff {size : ℕ} (hsize : 1 ≤ size) (grant grant' : Bool)
    (calls : List BufCall) :
  RefinesString size grant grant' calls ↔ (grant = true → grant' = true ∧ size < heapLimit)
  := by
  rw [RefinesString]
  cases grant with
  | false =>
      constructor
      · intro _ h
        contradiction
      · intro _
        exact ⟨(), .null, rfl, .inl rfl⟩
  | true =>
      by_cases hgranted : grant' = true ∧ size < heapLimit
      · obtain ⟨rfl, hlt⟩ := hgranted
        constructor
        · intro _ _
          exact ⟨rfl, hlt⟩
        · intro _
          refine ⟨(), _, mkCharBuf_value hsize hlt _, .inr ?_⟩
          apply (refines.calls (holds_mkCharBuf hsize hlt) calls).mono
          rintro results p' ⟨hresults, hp'⟩
          refine ⟨hresults, ?_⟩
          obtain ⟨b, hb, htext, hzero, hused, hblock⟩ := hp'.memory
          refine ⟨b, hb, htext, hzero, hused, hblock, ?_⟩
          intro call r p'' hfailed hrun
          apply hp'.run_failed hfailed hrun
      · have hfreed : mkCharBuf true grant' size .null = .done () .freed := by
          have hnone : kmalloc grant' size = none := if_neg hgranted
          have hbuf : kmalloc true 12 = some (.replicate 12 0) := rfl
          simp only [mkCharBuf, hbuf, hnone]
          rfl
        constructor
        · intro h
          rcases h.done hfreed with hnull | ⟨results, p', hrun, -, b, rfl, -⟩
          · cases hnull
          · cases calls_freed hrun
        · intro h
          exact absurd (h rfl) hgranted

theorem charBuf_refines_string_iff_one :
  RefinesString 1 true true [.append 65 false, .append 65 true, .dropLast, .isEmpty]
  := (charBuf_refines_string_iff (le_refl 1) true true _).mpr fun _ => ⟨rfl, by decide⟩

/-- The data of a buffer is refused, and the pointer to the buffer is returned. -/
theorem charBuf_not_refines_string :
  ¬ RefinesString 32 true false []
  := by
  intro h
  have hmake : mkCharBuf true false 32 .null = .done () .freed := rfl
  rcases h.done hmake with hnull | ⟨results, p', hrun, -, b, rfl, -⟩
  · cases hnull
  · cases hrun

end Torgo.Buffers
