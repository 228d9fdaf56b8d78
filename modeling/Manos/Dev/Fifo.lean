import Manos.Lib.Circular
import Manos.Lib.CStr
import Manos.Lib.Exec

/-!
# Character queues

The functions of `fifoq`, as programs over the pointer to a queue.  A store or a load outside the
buffer of the queue is a fault.
-/

namespace Dev

open Exec

/-- `FifoQ` -/
structure FifoQ where
  isEmpty : Bool
  readOffset : ℕ
  writeOffset : ℕ
  size : ℕ
  buf : ℕ → Byte

/-- `clearFifoQ` -/
def clearFifoQ (q : FifoQ) : FifoQ := ⟨true, 0, 0, q.size, q.buf⟩

/-- `newFifoQ`, with the memory that the allocator gives, if it does -/
def newFifoQ (size : ℕ) (mem : Option (ℕ → Byte)) : Option FifoQ :=
  mem.map fun buf => clearFifoQ ⟨false, 0, 0, size, buf⟩

/-- `isFullFifoQ` -/
def isFullFifoQ (q : Option FifoQ) : Bool :=
  q.any fun q => !q.isEmpty && q.readOffset = q.writeOffset

/-- `enqueueFifoQ` -/
def enqueueFifoQ (c : Byte) : Exec (Option FifoQ) Bool := do
  let q ← get
  if isFullFifoQ q then return false
  else
    match q with
    | none => fault (.null "q")
    | some q =>
        if q.writeOffset < q.size then
          modify fun _ =>
            some { q with
              buf := Function.update q.buf q.writeOffset c
              writeOffset := (q.writeOffset + 1) % q.size
              isEmpty := false }
          return true
        else fault (.wild "q->buf")

/-- `dequeueFifoQ`, which gives a character if it returns one -/
def dequeueFifoQ : Exec (Option FifoQ) (Option Byte) := do
  match ← get with
  | none => return none
  | some q =>
      if q.isEmpty then return none
      else if q.readOffset < q.size then
        modify fun _ =>
          some { q with
            readOffset := (q.readOffset + 1) % q.size
            isEmpty := (q.readOffset + 1) % q.size = q.writeOffset }
        return some (q.buf q.readOffset)
      else fault (.wild "q->buf")

/-! ### The characters in a queue -/

namespace FifoQ

/-- The number of the characters in a queue. -/
def count (q : FifoQ) : ℕ :=
  if q.isEmpty then 0
  else if q.readOffset < q.writeOffset then q.writeOffset - q.readOffset
  else q.writeOffset + q.size - q.readOffset

/-- The characters in a queue, in the order in which they will leave it. -/
def contents (q : FifoQ) : List Byte := Circular.slice q.buf q.size q.readOffset q.count

/-- The offsets are in the buffer, and the same if the queue is empty. -/
structure WellFormed (q : FifoQ) : Prop where
  read_lt : q.readOffset < q.size
  write_lt : q.writeOffset < q.size
  empty : q.isEmpty = true → q.readOffset = q.writeOffset

variable {q : FifoQ}

/-- The number of the characters, by where they are in the buffer. -/
theorem count_cases (h : q.WellFormed) :
  (q.isEmpty = true ∧ q.readOffset = q.writeOffset ∧ q.count = 0) ∨
    (q.isEmpty = false ∧ q.readOffset < q.writeOffset ∧
      q.count = q.writeOffset - q.readOffset) ∨
    (q.isEmpty = false ∧ q.writeOffset ≤ q.readOffset ∧
      q.count = q.writeOffset + q.size - q.readOffset)
  := by
  rw [count]
  cases he : q.isEmpty with
  | true => exact .inl ⟨rfl, h.empty he, rfl⟩
  | false =>
      rw [if_neg Bool.false_ne_true]
      rcases Nat.lt_or_ge q.readOffset q.writeOffset with hlt | hge
      · rw [if_pos hlt]
        exact .inr (.inl ⟨rfl, hlt, rfl⟩)
      · rw [if_neg (Nat.not_lt.mpr hge)]
        exact .inr (.inr ⟨rfl, hge, rfl⟩)

theorem count_pos (h : q.WellFormed) (he : q.isEmpty = false) :
  0 < q.count
  := by
  have := h.read_lt
  rcases count_cases h with ⟨he', -, -⟩ | ⟨-, hlt, hc⟩ | ⟨-, -, hc⟩
  · rw [he] at he'
    contradiction
  · omega
  · omega

/-- A queue is empty when its flag says so. -/
theorem contents_eq_nil_iff (h : q.WellFormed) :
  q.contents = [] ↔ q.isEmpty = true
  := by
  rw [← List.length_eq_zero_iff, contents, Circular.length_slice]
  constructor
  · intro hcount
    by_contra he
    have := count_pos h (by simpa using he)
    omega
  · intro he
    rw [count, if_pos he]

/-- The place of the next character. -/
theorem writeOffset_eq (h : q.WellFormed) :
  q.writeOffset = (q.readOffset + q.count) % q.size
  := by
  have hr := h.read_lt
  have hw := h.write_lt
  rcases count_cases h with ⟨-, heq, hc⟩ | ⟨-, hlt, hc⟩ | ⟨-, -, hc⟩
  · rw [hc, Nat.add_zero, heq, Nat.mod_eq_of_lt hw]
  · rw [hc, Nat.add_sub_cancel' (by omega), Nat.mod_eq_of_lt hw]
  · rw [hc, Nat.add_sub_cancel' (by omega), Nat.add_mod_right, Nat.mod_eq_of_lt hw]

/-- A queue that is not full has a free place. -/
theorem count_lt (h : q.WellFormed) (hfull : isFullFifoQ (some q) = false) :
  q.count < q.size
  := by
  have hr := h.read_lt
  have hw := h.write_lt
  rcases count_cases h with ⟨-, -, hc⟩ | ⟨-, -, hc⟩ | ⟨he, hge, hc⟩
  · omega
  · omega
  · have hne : q.readOffset ≠ q.writeOffset := by
      intro heq
      rw [isFullFifoQ] at hfull
      simp [he, heq] at hfull
    omega

/-- The queue after a character was put into it. -/
def put (q : FifoQ) (c : Byte) : FifoQ where
  isEmpty := false
  readOffset := q.readOffset
  writeOffset := (q.writeOffset + 1) % q.size
  size := q.size
  buf := Function.update q.buf q.writeOffset c

/-- The queue after its first character was taken. -/
def take (q : FifoQ) : FifoQ where
  isEmpty := (q.readOffset + 1) % q.size = q.writeOffset
  readOffset := (q.readOffset + 1) % q.size
  writeOffset := q.writeOffset
  size := q.size
  buf := q.buf

theorem put_wellFormed (h : q.WellFormed) (c : Byte) :
  (q.put c).WellFormed
  := ⟨h.read_lt, Nat.mod_lt _ (Nat.zero_lt_of_lt h.write_lt), fun h => nomatch h⟩

theorem take_wellFormed (h : q.WellFormed) :
  q.take.WellFormed
  := ⟨Nat.mod_lt _ (Nat.zero_lt_of_lt h.read_lt), h.write_lt, of_decide_eq_true⟩

theorem count_put (h : q.WellFormed) (hfull : isFullFifoQ (some q) = false) (c : Byte) :
  (q.put c).count = q.count + 1
  := by
  have hr := h.read_lt
  have hw := h.write_lt
  have hlt := count_lt h hfull
  have hput := count_cases (put_wellFormed h c)
  simp only [put] at hput ⊢
  have hnext : (q.writeOffset + 1) % q.size = q.writeOffset + 1 ∧ q.writeOffset + 1 < q.size ∨
      (q.writeOffset + 1) % q.size = 0 ∧ q.writeOffset + 1 = q.size :=
    Circular.next_cases hw
  generalize (q.writeOffset + 1) % q.size = w at hput hnext ⊢
  rcases hput with ⟨he, -, -⟩ | ⟨-, hlt', hc'⟩ | ⟨-, hge', hc'⟩
  · contradiction
  · rw [hc']
    rcases count_cases h with ⟨-, heq, hc⟩ | ⟨-, hlt', hc⟩ | ⟨-, hge', hc⟩
    · omega
    · omega
    · omega
  · rw [hc']
    rcases count_cases h with ⟨-, heq, hc⟩ | ⟨-, hlt', hc⟩ | ⟨-, hge', hc⟩
    · omega
    · omega
    · omega

theorem count_take (h : q.WellFormed) (he : q.isEmpty = false) :
  q.take.count + 1 = q.count
  := by
  have hr := h.read_lt
  have hw := h.write_lt
  have htake := count_cases (take_wellFormed h)
  simp only [take, decide_eq_true_eq, decide_eq_false_iff_not] at htake ⊢
  have hnext : (q.readOffset + 1) % q.size = q.readOffset + 1 ∧ q.readOffset + 1 < q.size ∨
      (q.readOffset + 1) % q.size = 0 ∧ q.readOffset + 1 = q.size :=
    Circular.next_cases hr
  generalize (q.readOffset + 1) % q.size = r at htake hnext ⊢
  rcases count_cases h with ⟨he', -, -⟩ | ⟨-, hlt, hc⟩ | ⟨-, hge, hc⟩
  · rw [he] at he'
    contradiction
  · rcases htake with ⟨-, heq, hc'⟩ | ⟨hne, hlt', hc'⟩ | ⟨hne, hge', hc'⟩
    · rw [hc']
      omega
    · rw [hc']
      omega
    · rw [hc']
      omega
  · rcases htake with ⟨-, heq, hc'⟩ | ⟨hne, hlt', hc'⟩ | ⟨hne, hge', hc'⟩
    · rw [hc']
      omega
    · rw [hc']
      omega
    · rw [hc']
      omega

theorem contents_put (h : q.WellFormed) (hfull : isFullFifoQ (some q) = false) (c : Byte) :
  (q.put c).contents = q.contents ++ [c]
  := by
  rw [contents, count_put h hfull]
  simp only [put]
  conv_lhs => rw [writeOffset_eq h]
  apply Circular.slice_push _ _ (count_lt h hfull)

theorem contents_take (h : q.WellFormed) (he : q.isEmpty = false) :
  q.contents = q.buf q.readOffset :: q.take.contents
  := by
  rw [contents, ← count_take h he, Circular.slice_pop _ h.read_lt]
  rfl

end FifoQ

variable {q : FifoQ}

/-- A queue that was cleared is empty. -/
theorem clearFifoQ_wellFormed (h : 0 < q.size) :
  (clearFifoQ q).WellFormed
  := ⟨h, h, fun _ => rfl⟩

theorem clearFifoQ_contents (q : FifoQ) :
  (clearFifoQ q).contents = []
  := rfl

/-- A character is put into a queue that is not full. -/
theorem enqueueFifoQ_put (h : q.WellFormed) (hfull : isFullFifoQ (some q) = false) (c : Byte) :
  enqueueFifoQ c (some q) = .done true (some (q.put c))
  := by
  apply (congrFun (if_neg (ne_true_of_eq_false hfull)) _).trans
  exact congrFun (if_pos h.write_lt) _

/-- Nothing is put into a queue that is full. -/
theorem enqueueFifoQ_full {q : Option FifoQ} (hfull : isFullFifoQ q = true) (c : Byte) :
  enqueueFifoQ c q = .done false q
  := congrFun (if_pos hfull) _

/-- The first character is taken from a queue that is not empty. -/
theorem dequeueFifoQ_take (h : q.WellFormed) (he : q.isEmpty = false) :
  dequeueFifoQ (some q) = .done (some (q.buf q.readOffset)) (some q.take)
  := by
  apply (congrFun (if_neg (ne_true_of_eq_false he)) _).trans
  exact congrFun (if_pos h.read_lt) _

/-- Nothing is taken from a queue that is empty. -/
theorem dequeueFifoQ_empty (he : q.isEmpty = true) :
  dequeueFifoQ (some q) = .done none (some q)
  := congrFun (if_pos he) _

/-- A queue is not full after a character was taken from it. -/
theorem isFullFifoQ_take (q : FifoQ) :
  isFullFifoQ (some q.take) = false
  := by
  simp only [isFullFifoQ, Option.any_some, FifoQ.take]
  simp

end Dev
