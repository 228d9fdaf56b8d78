import Manos.Lib.Objects
import Manos.Lib.Word32
import Manos.Torgo.CharBuf

/-!
# Character buffers in memory

The functions of `charbuf.c` over the pointer to a buffer, with requests for memory that may be
refused and with the blocks that are read and written.  Where no request is refused they are
those on the values of buffers.
-/

namespace Torgo.Buffers

open Exec

/-! ### The functions -/

/-- A C string, without its zero.  An object has less than `2 ^ 31` bytes. -/
structure CStr where
  bytes : List Byte
  nonzero : 0 ∉ bytes
  length_lt : bytes.length < 2 ^ 31

/-- `CharBuf`, with the bytes of the block that `data` points to -/
structure CharBuf where
  data : List Byte
  size : ℕ
  used : ℕ

/-- Pointers to a buffer. -/
inductive Ptr where
  | null
  /-- the buffer was freed -/
  | freed
  | buf (b : CharBuf)

/-- No block has as many bytes as this: the heap is smaller. -/
def heapLimit : ℕ := 2 ^ 27

/-- `kmalloc`, which clears what it gives.  It may refuse any request. -/
def kmalloc (grant : Bool) (size : ℕ) : Option (List Byte) :=
  if grant = true ∧ size < heapLimit then some (.replicate size 0) else none

/-- `mkCharBuf`: a request for the buffer, and one for its data.  If the second one is refused,
the pointer to the buffer is returned after the buffer was freed. -/
def mkCharBuf (grant grant' : Bool) (size : ℕ) : Exec Ptr Unit :=
  match kmalloc grant 12 with
  | none => modify fun _ => .null
  | some _ =>
      match kmalloc grant' size with
      | none => modify fun _ => .freed
      | some data => modify fun _ => .buf ⟨data, size, 0⟩

/-- The buffer that is pointed to. -/
def deref : Exec Ptr CharBuf := do
  match ← get with
  | .null => fault (.null "buf")
  | .freed => fault (.wild "buf")
  | .buf b => return b

/-- The fields of the buffer are assigned to. -/
def assign (b : CharBuf) : Exec Ptr Unit := modify fun _ => .buf b

/-- The bytes `s` are stored from `buf->data + i` on. -/
def store (i : ℕ) (s : List Byte) : Exec Ptr Unit := do
  let b ← deref
  if i + s.length ≤ b.data.length then
    assign { b with data := b.data.take i ++ s ++ b.data.drop (i + s.length) }
  else fault (.wild "buf->data")

/-- The byte `buf->data[i]` -/
def load (i : ℕ) : Exec Ptr Byte := do
  let b ← deref
  match b.data[i]? with
  | none => fault (.wild "buf->data")
  | some c => return c

/-- `clearCharBuf` -/
def clearCharBuf : Exec Ptr Unit := do
  store 0 [0]
  let b ← deref
  assign { b with used := 0 }

/-- `isEmptyCharBuf` -/
def isEmptyCharBuf : Exec Ptr Bool := do
  let b ← deref
  return b.used = 0

/-- The part of `concatCharBuf` that makes room for a string of `strSize` bytes; it returns
whether there is. -/
def makeRoom (strSize : ℕ) (grant : Bool) : Exec Ptr Bool := do
  let b ← deref
  if Word32.sub b.size b.used < Word32.add strSize 1 then
    let size := Word32.add strSize (Word32.mul b.size 2)
    match kmalloc grant size with
    | none => return false
    | some data =>
        if b.used ≤ b.data.length ∧ b.used ≤ data.length then
          assign ⟨b.data.take b.used ++ data.drop b.used, size, b.used⟩
          return true
        else fault (.wild "buf->data")
  else return true

/-- `concatCharBuf`, which returns whether the string was added -/
def concatCharBuf (str : CStr) (grant : Bool) : Exec Ptr Bool := do
  let strSize := str.bytes.length
  let ok ← makeRoom strSize grant
  if ok = true then
    let b ← deref
    store b.used str.bytes
    let b ← deref
    assign { b with used := Word32.add b.used strSize }
    let b ← deref
    store b.used [0]
    return true
  else return false

/-- The string of `appendCharBuf`, which is empty for a zero. -/
def charStr (c : Byte) : CStr where
  bytes := if c = 0 then [] else [c]
  nonzero := by
    split
    case isTrue => exact List.not_mem_nil
    case isFalse h => exact fun h₀ => h (List.mem_singleton.mp h₀).symm
  length_lt := by
    split
    · exact Nat.two_pow_pos 31
    · exact Nat.one_lt_two_pow (by decide)

/-- `appendCharBuf` -/
def appendCharBuf (c : Byte) (grant : Bool) : Exec Ptr Byte := do
  let _ ← concatCharBuf (charStr c) grant
  return c

/-- `dropLastCharBuf` -/
def dropLastCharBuf : Exec Ptr Byte := do
  let b ← deref
  if b.used ≠ 0 then
    assign { b with used := b.used - 1 }
    let c ← load (b.used - 1)
    store (b.used - 1) [0]
    return c
  else return 0

/-! ### Loads and stores -/

section

variable {l m r s : List Byte} {size used : ℕ} {c : Byte}

theorem deref_buf (b : CharBuf) :
  deref (.buf b) = .done b (.buf b)
  := rfl

theorem assign_apply (b : CharBuf) (p : Ptr) :
  assign b p = .done () (.buf b)
  := rfl

/-- The bytes `m` in the block are replaced. -/
theorem store_buf {data : List Byte} (hdata : data = l ++ m ++ r) (h : m.length = s.length) :
  store l.length s (.buf ⟨data, size, used⟩) = .done () (.buf ⟨l ++ s ++ r, size, used⟩)
  := by
  subst hdata
  have hlen : l.length + s.length ≤ (l ++ m ++ r).length := by
    rw [List.length_append, List.length_append]
    omega
  rw [store, bind_done (deref_buf _), if_pos hlen, assign_apply]
  dsimp only
  rw [← h, ← List.length_append, List.drop_left, List.append_assoc l m r, List.take_left]

theorem load_buf :
  load l.length (.buf ⟨l ++ c :: r, size, used⟩) = .done c (.buf ⟨l ++ c :: r, size, used⟩)
  := by
  rw [load, bind_done (deref_buf _)]
  simp

end

/-! ### Buffers and their values -/

/-- A buffer with the text `s` and the bytes `rest` behind the zero after it. -/
def holding (s rest : List Byte) : CharBuf := ⟨s ++ 0 :: rest, s.length + 1 + rest.length, s.length⟩

@[simp]
theorem holding_size (s rest : List Byte) : (holding s rest).size = s.length + 1 + rest.length := rfl

@[simp]
theorem holding_used (s rest : List Byte) : (holding s rest).used = s.length := rfl

@[simp]
theorem holding_data (s rest : List Byte) : (holding s rest).data = s ++ 0 :: rest := rfl

/-- The buffer in memory with the value `b`. -/
def ofValue (b : Torgo.CharBuf) : CharBuf := ⟨b.data, b.data.length, b.used⟩

section

variable {b : Torgo.CharBuf} {s rest : List Byte}

theorem ofValue_eq_holding (hs : b.text = s) (hdata : b.data = s ++ 0 :: rest) :
  ofValue b = holding s rest
  := by
  rw [ofValue, holding, hdata, ← b.length_text, hs, List.length_append, List.length_cons]
  congr 1
  omega

theorem exists_holding (b : Torgo.CharBuf) :
  ∃ rest, b.data = b.text ++ 0 :: rest ∧ ofValue b = holding b.text rest
  := by
  obtain ⟨rest, hdata⟩ := b.terminated
  exact ⟨rest, hdata, ofValue_eq_holding rfl hdata⟩

theorem ofValue_holding (h : 0 ∉ s) :
  ofValue (Torgo.CharBuf.holding s rest h) = holding s rest
  := ofValue_eq_holding (Torgo.CharBuf.text_holding h) rfl

/-- The bytes that are stored end before the block does. -/
theorem used_lt (b : Torgo.CharBuf) :
  b.used < b.data.length
  := by
  obtain ⟨rest, h⟩ := b.terminated
  rw [h, ← Torgo.CharBuf.text, List.length_append, b.length_text, List.length_cons]
  omega

/-- A buffer that was made is empty. -/
theorem mkCharBuf_value {size : ℕ} (hsize : 1 ≤ size) (hlt : size < heapLimit) (p : Ptr) :
  mkCharBuf true true size p = .done () (.buf (ofValue (Torgo.mkCharBuf size)))
  := by
  obtain ⟨m, rfl⟩ := Nat.exists_eq_add_of_le' hsize
  have hdata : kmalloc true (m + 1) = some (.replicate (m + 1) 0) := if_pos ⟨rfl, hlt⟩
  have hbuf : kmalloc true 12 = some (.replicate 12 0) := rfl
  simp only [mkCharBuf, hbuf, hdata, Torgo.mkCharBuf, ofValue_holding, holding]
  rw [modify_apply, Nat.add_sub_cancel, List.length_replicate, List.nil_append,
    List.length_nil, Nat.zero_add, Nat.add_comm 1 m, List.replicate_succ]

theorem clearCharBuf_value (b : Torgo.CharBuf) :
  clearCharBuf (.buf (ofValue b)) = .done () (.buf (ofValue (Torgo.clearCharBuf b)))
  := by
  obtain ⟨c, rest, hdata⟩ := List.exists_cons_of_length_pos (Nat.zero_lt_of_lt (used_lt b))
  have hstore : store 0 [0] (.buf (ofValue b))
      = .done () (.buf ⟨0 :: rest, b.data.length, b.used⟩) := by
    have h : b.data = [] ++ [c] ++ rest := hdata
    exact store_buf h rfl
  rw [clearCharBuf, bind_done hstore, bind_done (deref_buf _), assign_apply]
  simp [Torgo.clearCharBuf, ofValue_holding, holding, hdata, Nat.add_comm]

theorem isEmptyCharBuf_value (b : Torgo.CharBuf) :
  isEmptyCharBuf (.buf (ofValue b)) = .done (Torgo.isEmptyCharBuf b) (.buf (ofValue b))
  := rfl

/-- The last byte of a text is dropped. -/
theorem dropLastCharBuf_holding (c : Byte) :
  dropLastCharBuf (.buf (holding (s ++ [c]) rest)) = .done c (.buf (holding s (0 :: rest)))
  := by
  have hused : (holding (s ++ [c]) rest).used - 1 = s.length := by
    rw [holding_used, List.length_append, List.length_singleton, Nat.add_sub_cancel]
  have hne : (holding (s ++ [c]) rest).used ≠ 0 := by
    rw [holding_used, List.length_append, List.length_singleton]
    exact Nat.succ_ne_zero _
  rw [dropLastCharBuf, bind_done (deref_buf _), if_pos hne, hused, bind_done (assign_apply _ _),
    holding_data, List.append_assoc, List.singleton_append, bind_done load_buf]
  have hparts : s ++ c :: 0 :: rest = s ++ [c] ++ 0 :: rest := by
    rw [List.append_assoc, List.singleton_append]
  apply (bind_done (store_buf (s := [0]) hparts rfl)).trans
  have hsize : s.length + 1 + 1 + rest.length = s.length + 1 + (rest.length + 1) := by omega
  simp [holding, hsize]

/-- The last byte is dropped, if there is one. -/
theorem dropLastCharBuf_value (b : Torgo.CharBuf) :
  dropLastCharBuf (.buf (ofValue b))
    = .done (Torgo.dropLastCharBuf b).1 (.buf (ofValue (Torgo.dropLastCharBuf b).2))
  := by
  obtain ⟨rest, hdata, hvalue⟩ := exists_holding b
  rw [Torgo.dropLastCharBuf]
  by_cases hused : b.used = 0
  · have hnot : ¬ (ofValue b).used ≠ 0 := not_not.mpr hused
    rw [dropLastCharBuf, bind_done (deref_buf _), if_neg hnot, if_pos hused]
    rfl
  · rw [if_neg hused, hvalue, ofValue_holding, hdata, ← b.length_text, List.drop_left]
    rcases List.eq_nil_or_concat b.text with hnil | ⟨s, c, hs⟩
    · rw [← b.length_text, hnil] at hused
      contradiction
    · have hlast : b.text.getLastD 0 = c := by simp [hs]
      have hinit : b.text.dropLast = s := by rw [hs, List.concat_eq_append, List.dropLast_concat]
      rw [List.concat_eq_append] at hs
      show _ = Outcome.done (b.text.getLastD 0) (Ptr.buf (holding b.text.dropLast (0 :: rest)))
      rw [hlast, hinit, hs, dropLastCharBuf_holding]

/-! ### Adding a string -/

/-- There is room for a string in the bytes behind the zero. -/
theorem makeRoom_room {n : ℕ} {grant : Bool} (hfits : (holding s rest).size < heapLimit)
    (hn : n ≤ rest.length) :
  makeRoom n grant (.buf (holding s rest)) = .done true (.buf (holding s rest))
  := by
  rw [heapLimit, holding_size] at hfits
  have hroom : ¬ Word32.sub (holding s rest).size (holding s rest).used < Word32.add n 1 := by
    rw [holding_size, holding_used, Word32.sub_of_le (by omega) (by omega), Word32.add_of_lt (by omega)]
    omega
  rw [makeRoom, bind_done (deref_buf _), if_neg hroom, pure_apply]

/-- A new block is needed. -/
theorem needs_block {n : ℕ} (hfits : (holding s rest).size < heapLimit) (hn : n < 2 ^ 31)
    (hlt : rest.length < n) :
  Word32.sub (holding s rest).size (holding s rest).used < Word32.add n 1
    ∧ Word32.add n (Word32.mul (holding s rest).size 2) = n + (holding s rest).size * 2
  := by
  rw [heapLimit, holding_size] at hfits
  rw [holding_size, holding_used, Word32.mul, Nat.mod_eq_of_lt (by omega), Word32.add_of_lt (by omega),
    Word32.sub_of_le (by omega) (by omega), Word32.add_of_lt (by omega)]
  omega

/-- The buffer is as it was if no new block is given. -/
theorem makeRoom_refused {n : ℕ} {grant : Bool} (hfits : (holding s rest).size < heapLimit)
    (hn : n < 2 ^ 31) (hlt : rest.length < n)
    (hrefused : ¬ (grant = true ∧ n + (holding s rest).size * 2 < heapLimit)) :
  makeRoom n grant (.buf (holding s rest)) = .done false (.buf (holding s rest))
  := by
  obtain ⟨hneeds, hsize⟩ := needs_block hfits hn hlt
  have hnone : kmalloc grant (n + (holding s rest).size * 2) = none := if_neg hrefused
  simp only [makeRoom, bind_done (deref_buf _), if_pos hneeds, hsize, hnone, pure_apply]

/-- The bytes behind the zero in a new block. -/
def freshRest (s rest : List Byte) (n : ℕ) : List Byte :=
  .replicate (n + (holding s rest).size * 2 - (s.length + 1)) 0

/-- The text is copied into a new block. -/
theorem makeRoom_grown {n : ℕ} {grant : Bool} (hfits : (holding s rest).size < heapLimit)
    (hn : n < 2 ^ 31) (hlt : rest.length < n)
    (hgranted : grant = true ∧ n + (holding s rest).size * 2 < heapLimit) :
  makeRoom n grant (.buf (holding s rest)) = .done true (.buf (holding s (freshRest s rest n)))
  := by
  obtain ⟨hneeds, hsize⟩ := needs_block hfits hn hlt
  have hsome : kmalloc grant (n + (holding s rest).size * 2)
      = some (.replicate (n + (holding s rest).size * 2) 0) := if_pos hgranted
  have hcopy : (holding s rest).used ≤ (holding s rest).data.length
      ∧ (holding s rest).used
        ≤ (List.replicate (n + (holding s rest).size * 2) (0 : Byte)).length := by
    simp only [holding, List.length_append, List.length_cons, List.length_replicate]
    omega
  have hcopied : (holding s rest).data.take (holding s rest).used
        ++ (List.replicate (n + (holding s rest).size * 2) (0 : Byte)).drop (holding s rest).used
      = s ++ 0 :: freshRest s rest n := by
    have hlen : n + (holding s rest).size * 2 - (holding s rest).used
        = n + (holding s rest).size * 2 - (s.length + 1) + 1 := by
      simp only [holding_size, holding_used]
      omega
    rw [List.drop_replicate, hlen, List.replicate_succ, holding_data, holding_used, List.take_left,
      freshRest]
  have hfresh : s.length + 1 + (freshRest s rest n).length = n + (holding s rest).size * 2 := by
    simp only [freshRest, List.length_replicate, holding_size]
    omega
  simp only [makeRoom, bind_done (deref_buf _), if_pos hneeds, hsize, hsome, if_pos hcopy,
    bind_done (assign_apply _ _), pure_apply]
  rw [hcopied, ← hfresh]
  rfl

/-- A string for which there is room is added. -/
theorem concatCharBuf_holding {str : CStr} {grant : Bool} {rest' : List Byte}
    (hroom : makeRoom str.bytes.length grant (.buf (holding s rest))
      = .done true (.buf (holding s rest')))
    (hfits : (holding s rest').size < heapLimit) (hle : str.bytes.length ≤ rest'.length) :
  concatCharBuf str grant (.buf (holding s rest))
    = .done true (.buf (holding (s ++ str.bytes) (rest'.drop str.bytes.length)))
  := by
  rw [heapLimit, holding_size] at hfits
  have hadd : Word32.add s.length str.bytes.length = (s ++ str.bytes).length := by
    rw [List.length_append, Word32.add_of_lt (by omega)]
  -- the bytes that the string replaces, and the one that the zero after it replaces
  obtain ⟨x, r, hr⟩ := List.exists_cons_of_length_pos (l := (0 :: rest').drop str.bytes.length) (by
    rw [List.length_drop, List.length_cons]
    omega)
  have hm : ((0 :: rest').take str.bytes.length).length = str.bytes.length := by
    rw [List.length_take, List.length_cons]
    omega
  have hdata : s ++ 0 :: rest' = s ++ (0 :: rest').take str.bytes.length ++ x :: r := by
    rw [← hr, List.append_assoc, List.take_append_drop]
  have hdrop : rest'.drop str.bytes.length = r := by
    have h := congrArg List.tail hr
    rwa [List.tail_drop, List.drop_succ_cons, List.tail_cons] at h
  have hsize : s.length + 1 + rest'.length = (s ++ str.bytes).length + 1 + r.length := by
    rw [← hdrop, List.length_append, List.length_drop]
    omega
  have hparts : s ++ str.bytes ++ x :: r = s ++ str.bytes ++ [x] ++ r := by
    rw [List.append_assoc _ [x], List.singleton_append]
  rw [concatCharBuf, bind_done hroom, if_pos rfl, bind_done (deref_buf _)]
  apply (bind_done (store_buf hdata hm)).trans
  rw [bind_done (deref_buf _), bind_done (assign_apply _ _), bind_done (deref_buf _)]
  dsimp only
  rw [hadd]
  apply (bind_done (store_buf (s := [0]) hparts rfl)).trans
  rw [pure_apply, hsize, hdrop, List.append_assoc _ [0], List.singleton_append]
  rfl

/-- The memory to which a string is added. -/
theorem room_eq (hdata : b.data = b.text ++ 0 :: rest) (n : ℕ) :
  b.room n = b.text ++ 0 :: if rest.length < n then freshRest b.text rest n else rest
  := by
  have hused := b.length_text
  have hlen : b.data.length = b.used + 1 + rest.length := by
    rw [hdata, List.length_append, hused, List.length_cons]
    omega
  rw [Torgo.CharBuf.room, ← Torgo.CharBuf.text]
  by_cases hlt : rest.length < n
  · have hfresh : n + b.data.length * 2 - b.used = n + b.data.length * 2 - (b.used + 1) + 1 := by
      omega
    rw [if_pos (by omega), if_pos hlt, hfresh, List.replicate_succ, freshRest, holding_size, hused,
      hlen]
  · rw [if_neg (by omega), if_neg hlt, hdata]

/-- A string is added unless a block that is needed for it is refused. -/
theorem concatCharBuf_value {str : CStr} {grant : Bool} (hfits : b.data.length < heapLimit)
    (hgranted : b.data.length - b.used < str.bytes.length + 1 →
      grant = true ∧ str.bytes.length + b.data.length * 2 < heapLimit) :
  concatCharBuf str grant (.buf (ofValue b))
    = .done true (.buf (ofValue (Torgo.concatCharBuf b str.bytes)))
  := by
  obtain ⟨rest, hdata, hvalue⟩ := exists_holding b
  have hsize : (holding b.text rest).size = b.data.length := by rw [← hvalue]; rfl
  have hlen : b.data.length = b.used + 1 + rest.length := by
    rw [← hsize, holding_size, b.length_text]
  have hdrop : ∀ l : List Byte, (b.text ++ 0 :: l).drop (b.used + str.bytes.length + 1)
      = l.drop str.bytes.length := by
    intro l
    rw [← b.length_text, Nat.add_assoc, ← List.drop_drop, List.drop_left, List.drop_succ_cons]
  have hresult : ofValue (Torgo.concatCharBuf b str.bytes) = holding (b.text ++ str.bytes)
      ((if rest.length < str.bytes.length then freshRest b.text rest str.bytes.length
        else rest).drop str.bytes.length) := by
    rw [Torgo.concatCharBuf, ofValue_holding, cstr_of_notMem str.nonzero, room_eq hdata, hdrop]
  rw [hvalue, hresult]
  by_cases hlt : rest.length < str.bytes.length
  · have hgranted' := hgranted (by omega)
    have hfresh : (holding b.text (freshRest b.text rest str.bytes.length)).size
        = str.bytes.length + b.data.length * 2 := by
      rw [holding_size, freshRest, List.length_replicate, hsize, b.length_text]
      omega
    rw [if_pos hlt]
    apply concatCharBuf_holding
    · apply makeRoom_grown (by rw [hsize]; exact hfits) str.length_lt hlt
      rw [hsize]
      apply hgranted'
    · rw [hfresh]
      apply hgranted'.2
    · rw [freshRest, List.length_replicate, hsize, b.length_text]
      omega
  · rw [if_neg hlt]
    apply concatCharBuf_holding
    · apply makeRoom_room (by rw [hsize]; exact hfits) (Nat.le_of_not_lt hlt)
    · rw [hsize]
      exact hfits
    · exact Nat.le_of_not_lt hlt

/-- The buffer is as it was if a block that is needed is refused. -/
theorem concatCharBuf_refused {str : CStr} {grant : Bool} (hfits : b.data.length < heapLimit)
    (hneeds : b.data.length - b.used < str.bytes.length + 1)
    (hrefused : ¬ (grant = true ∧ str.bytes.length + b.data.length * 2 < heapLimit)) :
  concatCharBuf str grant (.buf (ofValue b)) = .done false (.buf (ofValue b))
  := by
  obtain ⟨rest, hdata, hvalue⟩ := exists_holding b
  have hsize : (holding b.text rest).size = b.data.length := by rw [← hvalue]; rfl
  have hlen : b.data.length = b.used + 1 + rest.length := by
    rw [← hsize, holding_size, b.length_text]
  have hroom : makeRoom str.bytes.length grant (.buf (holding b.text rest))
      = .done false (.buf (holding b.text rest)) := by
    apply makeRoom_refused
    · rw [hsize]
      exact hfits
    · apply str.length_lt
    · omega
    · rw [hsize]
      exact hrefused
  rw [hvalue, concatCharBuf, bind_done hroom, if_neg Bool.false_ne_true, pure_apply]

end

end Torgo.Buffers
