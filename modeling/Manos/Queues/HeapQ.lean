import Manos.Lib.BinaryHeap
import Manos.Lib.Exec
import Manos.Lib.Word32

/-!
# Priority queues

The functions of `heapq`, as programs over a queue.  A load or a store outside the memory of the
queue is a fault.  The values are those of `uint32_t`, in their order.
-/

namespace Queues

open Exec BinaryHeap

/-- `HeapQ`, with the number of values for which there is memory behind its fields -/
structure HeapQ where
  n : ℕ
  size : ℕ
  room : ℕ
  buf : ℕ → ℕ
  /-- the queue lies in the memory of a machine of 32 bits -/
  room_fits : 8 + 4 * room < 2 ^ 32

/-- `clearHeapQ` -/
def clearHeapQ (q : HeapQ) : HeapQ := { q with n := 0 }

/-- The number of bytes that `newHeapQ` asks for. -/
def heapQBytes (size : ℕ) : ℕ := (8 + 4 * size % 2 ^ 32) % 2 ^ 32

theorem heapQBytes_room (size : ℕ) :
  8 + 4 * ((heapQBytes size - 8) / 4) < 2 ^ 32
  := by
  rw [heapQBytes]
  omega

/-- `newHeapQ`, with the memory that the allocator gives, if it does.  A queue for which it gets
less than the fields take is cleared outside of its block. -/
def newHeapQ (syskmalloc : ℕ → Option (ℕ → ℕ)) (size : ℕ) : Exec (Option HeapQ) Unit :=
  match syskmalloc (heapQBytes size) with
  | none => modify fun _ => none
  | some mem =>
      if heapQBytes size < 8 then fault (.wild "q")
      else modify fun _ =>
        some (clearHeapQ ⟨0, size, (heapQBytes size - 8) / 4, mem, heapQBytes_room size⟩)

namespace HeapQ

/-- The value `q->buf[i]` -/
def load (i : ℕ) : Exec HeapQ ℕ := do
  let q ← get
  if i < q.room then return q.buf i else fault (.wild "q->buf")

/-- The assignment `q->buf[i] = x` -/
def store (i x : ℕ) : Exec HeapQ Unit := do
  let q ← get
  if i < q.room then modify fun q => { q with buf := Function.update q.buf i x }
  else fault (.wild "q->buf")

/-- The exchange of `q->buf[i]` and `q->buf[j]` by way of `tmp` -/
def swap (i j : ℕ) : Exec HeapQ Unit := do
  let tmp ← load i
  let x ← load j
  store i x
  store j tmp

end HeapQ

open HeapQ

/-- The value of `maxIndex` in `downHeapQ` -/
def maxIndex (leftIndex rightIndex bottomIndex : ℕ) : Exec HeapQ ℕ :=
  if leftIndex = bottomIndex then pure leftIndex
  else do
    let left ← load leftIndex
    let right ← load rightIndex
    return if left ≤ right then rightIndex else leftIndex

/-- `downHeapQ`, whose recursion makes at most the given number of calls -/
def downHeapQ : ℕ → ℕ → ℕ → Exec HeapQ Unit
  | 0, _, _ => fault .endless
  | k + 1, startIndex, bottomIndex =>
      let leftIndex := Word32.add (Word32.mul startIndex 2) 1
      let rightIndex := Word32.add (Word32.mul startIndex 2) 2
      when (leftIndex ≤ bottomIndex) do
        let max ← maxIndex leftIndex rightIndex bottomIndex
        let x ← load startIndex
        let y ← load max
        when (x ≤ y) do
          swap startIndex max
          downHeapQ k max bottomIndex

/-- `upHeapQ`, whose recursion makes at most the given number of calls -/
def upHeapQ : ℕ → ℕ → ℕ → Exec HeapQ Unit
  | 0, _, _ => fault .endless
  | k + 1, startIndex, bottomIndex =>
      when (startIndex < bottomIndex) do
        let upIndex := (bottomIndex - 1) / 2
        let x ← load upIndex
        let y ← load bottomIndex
        when (x < y) do
          swap upIndex bottomIndex
          upHeapQ k startIndex upIndex

/-- `enqueueHeapQ`, which returns whether there was room -/
def enqueueHeapQ (k : ℕ) (x : ℕ) : Exec HeapQ Bool := do
  let q ← get
  if q.n < q.size then
    store q.n x
    upHeapQ k 0 q.n
    modify fun q => { q with n := Word32.add q.n 1 }
    return true
  else return false

/-- `dequeueHeapQ`, which returns a flag and stores a value in `*x` -/
def dequeueHeapQ (k : ℕ) : Exec HeapQ (Bool × ℕ) := do
  let x ← load 0
  modify fun q => { q with n := Word32.sub q.n 1 }
  let q ← get
  let last ← load q.n
  store 0 last
  downHeapQ k 0 (Word32.sub q.n 1)
  let q ← get
  return (0 < q.n, x)

/-! ### Loads and stores -/

namespace HeapQ

variable {q q' : HeapQ} {i j k x : ℕ}

/-- The values in a queue. -/
def contents (q : HeapQ) : Multiset ℕ := BinaryHeap.contents q.buf q.n

/-- The queue with another memory behind its fields. -/
def withBuf (q : HeapQ) (buf : ℕ → ℕ) : HeapQ where
  n := q.n
  size := q.size
  room := q.room
  buf := buf
  room_fits := q.room_fits

@[simp]
theorem withBuf_n (q : HeapQ) (buf : ℕ → ℕ) : (q.withBuf buf).n = q.n := rfl

@[simp]
theorem withBuf_size (q : HeapQ) (buf : ℕ → ℕ) : (q.withBuf buf).size = q.size := rfl

@[simp]
theorem withBuf_room (q : HeapQ) (buf : ℕ → ℕ) : (q.withBuf buf).room = q.room := rfl

@[simp]
theorem withBuf_buf (q : HeapQ) (buf : ℕ → ℕ) : (q.withBuf buf).buf = buf := rfl

theorem load_apply (h : i < q.room) :
  load i q = .done (q.buf i) q
  := congrFun (if_pos h) q

theorem store_apply (h : i < q.room) :
  store i x q = .done () (q.withBuf (Function.update q.buf i x))
  := congrFun (if_pos h) q

theorem load_eq_done_iff :
  load i q = .done x q' ↔ i < q.room ∧ x = q.buf i ∧ q' = q
  := by
  by_cases h : i < q.room
  · rw [load_apply h, Outcome.done.injEq, eq_comm, eq_comm (a := q)]
    simp [h]
  · have hstop : load i q = .stop (.wild "q->buf") q := congrFun (if_neg h) q
    simp [hstop, h]

theorem store_eq_done_iff {u : Unit} :
  store i x q = .done u q' ↔ i < q.room ∧ q' = q.withBuf (Function.update q.buf i x)
  := by
  by_cases h : i < q.room
  · rw [store_apply h, Outcome.done.injEq, eq_comm (a := q.withBuf _)]
    simp [h]
  · have hstop : store i x q = .stop (.wild "q->buf") q := congrFun (if_neg h) q
    simp [hstop, h]

theorem swap_apply (hi : i < q.room) (hj : j < q.room) :
  swap i j q = .done () (q.withBuf (exchange q.buf i j))
  := by
  rw [swap, bind_done (load_apply hi), bind_done (load_apply hj), bind_done (store_apply hi)]
  exact store_apply (q := q.withBuf (Function.update q.buf i (q.buf j))) hj

/-- Indices of values do not overflow when they are doubled. -/
theorem children_eq (h : i < q.room) :
  Word32.add (Word32.mul i 2) 1 = i * 2 + 1 ∧ Word32.add (Word32.mul i 2) 2 = i * 2 + 2
  := by
  have := q.room_fits
  rw [Word32.add, Word32.add, Word32.mul]
  omega

/-! ### Up and down -/

/-- What a pass over a heap of `n` values leaves: a heap of the same values, with nothing changed
behind them. -/
structure Sifted (q : HeapQ) (n : ℕ) (q' : HeapQ) : Prop where
  fields : q' = q.withBuf q'.buf
  ordered : Ordered q'.buf n
  contents : BinaryHeap.contents q'.buf n = BinaryHeap.contents q.buf n
  frame : ∀ i, n ≤ i → q'.buf i = q.buf i

variable {n : ℕ}

theorem Sifted.refl (h : Ordered q.buf n) :
  Sifted q n q
  := ⟨rfl, h, rfl, fun _ _ => rfl⟩

/-- An exchange before a pass. -/
theorem Sifted.exchange (hi : i < n) (hj : j < n)
    (h : Sifted (q.withBuf (exchange q.buf i j)) n q') :
  Sifted q n q'
  := by
  refine ⟨h.fields, h.ordered, ?_, ?_⟩
  · rw [h.contents, withBuf_buf, contents_exchange hi hj]
  · intro l hl
    rw [h.frame l hl, withBuf_buf, exchange_of_ne (by omega) (by omega)]

/-- The last value moves up to its place. -/
theorem upHeapQ_sifted (h : UpOrder q.buf n i) (hi : i < n) (hroom : n ≤ q.room) (hk : i < k) :
  Returns q (upHeapQ k 0 i) fun _ q' => Sifted q n q'
  := by
  induction k generalizing q i with
  | zero => contradiction
  | succ k ih =>
      rw [upHeapQ]
      by_cases hpos : 0 < i
      · have hp := parent_lt hpos
        rw [when_pos hpos]
        apply Returns.step (load_apply (i := parent i) (by omega))
        apply Returns.step (load_apply (by omega))
        by_cases hlt : q.buf (parent i) < q.buf i
        · rw [when_pos hlt]
          apply Returns.step (swap_apply (i := parent i) (by omega) (by omega))
          have hmove : UpOrder (q.withBuf (exchange q.buf (parent i) i)).buf n (parent i) :=
            h.move hpos hi hlt
          apply (ih hmove (by omega) hroom (by omega)).mono
          intro _ q' hq'
          exact hq'.exchange (by omega) hi
        · rw [when_neg hlt]
          apply Returns.pure
          apply Sifted.refl
          apply h.finish
          intro _
          apply Nat.le_of_not_lt hlt
      · rw [when_neg hpos]
        apply Returns.pure
        apply Sifted.refl
        apply h.finish
        intro hpos'
        contradiction

/-- The larger of the children, the right one where they are equal. -/
theorem maxIndex_spec (hleft : i * 2 + 1 < n) (hroom : n ≤ q.room) :
  ∃ m, maxIndex (i * 2 + 1) (i * 2 + 2) (n - 1) q = .done m q ∧ m < n ∧ 0 < m ∧ parent m = i
    ∧ ∀ j < n, 0 < j → parent j = i → q.buf j ≤ q.buf m
  := by
  rw [maxIndex]
  by_cases hlast : i * 2 + 1 = n - 1
  · refine ⟨i * 2 + 1, ?_, hleft, by omega, ?_, ?_⟩
    · rw [if_pos hlast, pure_apply]
    · rw [parent_eq_iff (by omega)]
      exact .inl rfl
    · intro j hj hpos hparent
      have hj' : j = i * 2 + 1 := by
        have := (parent_eq_iff hpos).mp hparent
        omega
      rw [hj']
  · rw [if_neg hlast, bind_done (load_apply (by omega)), bind_done (load_apply (by omega))]
    by_cases hle : q.buf (i * 2 + 1) ≤ q.buf (i * 2 + 2)
    · refine ⟨i * 2 + 2, ?_, by omega, by omega, ?_, ?_⟩
      · rw [if_pos hle, pure_apply]
      · rw [parent_eq_iff (by omega)]
        exact .inr rfl
      · intro j hj hpos hparent
        rcases (parent_eq_iff hpos).mp hparent with rfl | rfl
        · apply hle
        · apply le_refl
    · refine ⟨i * 2 + 1, ?_, hleft, by omega, ?_, ?_⟩
      · rw [if_neg hle, pure_apply]
      · rw [parent_eq_iff (by omega)]
        exact .inl rfl
      · intro j hj hpos hparent
        rcases (parent_eq_iff hpos).mp hparent with rfl | rfl
        · apply le_refl
        · apply Nat.le_of_not_le hle

/-- The first value moves down to its place. -/
theorem downHeapQ_sifted (h : DownOrder q.buf n i) (hi : i < n) (hroom : n ≤ q.room)
    (hk : n ≤ i + k) :
  Returns q (downHeapQ k i (n - 1)) fun _ q' => Sifted q n q'
  := by
  induction k generalizing q i with
  | zero => omega
  | succ k ih =>
      obtain ⟨hl, hr⟩ := children_eq (q := q) (i := i) (by omega)
      simp only [downHeapQ]
      by_cases hleft : Word32.add (Word32.mul i 2) 1 ≤ n - 1
      · rw [when_pos hleft]
        simp only [hl, hr] at hleft ⊢
        obtain ⟨m, hm, hmn, hmpos, hparent, hmax⟩ :=
          maxIndex_spec (q := q) (i := i) (n := n) (by omega) hroom
        have hp := parent_lt hmpos
        apply Returns.step hm
        apply Returns.step (load_apply (by omega))
        apply Returns.step (load_apply (by omega))
        by_cases hle : q.buf i ≤ q.buf m
        · rw [when_pos hle]
          apply Returns.step (swap_apply (by omega) (by omega))
          have hmove : DownOrder (q.withBuf (exchange q.buf i m)).buf n m :=
            h.move hmn hmpos hparent hmax hle
          apply (ih hmove hmn hroom (by omega)).mono
          intro _ q' hq'
          exact hq'.exchange hi hmn
        · rw [when_neg hle]
          apply Returns.pure
          apply Sifted.refl
          apply h.finish
          intro j hj hpos hj'
          apply le_trans (hmax j hj hpos hj')
          apply Nat.le_of_not_le hle
      · rw [when_neg hleft]
        rw [hl] at hleft
        apply Returns.pure
        apply Sifted.refl
        apply h.finish
        intro j hj hpos hj'
        have := (parent_eq_iff hpos).mp hj'
        omega

/-! ### What the operations do -/

/-- The value `x` was added to the heap `q`, which is `q'` then. -/
structure Added (q : HeapQ) (x : ℕ) (q' : HeapQ) : Prop where
  n : q'.n = q.n + 1
  size : q'.size = q.size
  room : q'.room = q.room
  ordered : Ordered q'.buf q'.n
  contents : q'.contents = x ::ₘ q.contents
  frame : ∀ i, q.n < i → q'.buf i = q.buf i

/-- The value `x`, a largest one, was taken from the heap `q`, which is `q'` then. -/
structure Removed (q : HeapQ) (x : ℕ) (q' : HeapQ) : Prop where
  n : q'.n + 1 = q.n
  size : q'.size = q.size
  room : q'.room = q.room
  ordered : Ordered q'.buf q'.n
  largest : ∀ y ∈ q.contents, y ≤ x
  contents : q.contents = x ::ₘ q'.contents
  frame : ∀ i, q'.n ≤ i → q'.buf i = q.buf i

/-- A value is added where there is room for it. -/
theorem enqueueHeapQ_added (h : Ordered q.buf q.n) (hsize : q.n < q.size) (hroom : q.n < q.room)
    (hk : q.n < k) :
  Returns q (enqueueHeapQ k x) fun ok q' => ok = true ∧ Added q x q'
  := by
  have hfits := q.room_fits
  apply Returns.get
  rw [if_pos hsize]
  apply Returns.step (store_apply hroom)
  have hup : UpOrder (q.withBuf (Function.update q.buf q.n x)).buf (q.n + 1) q.n := h.push x
  apply Returns.bind (upHeapQ_sifted hup (Nat.lt_succ_self _) hroom hk)
  rintro _ q' hq'
  apply Returns.modify
  rintro q'' rfl
  apply Returns.pure
  have hn : q'.n = q.n := by rw [hq'.fields, withBuf_n, withBuf_n]
  have hadd : Word32.add q'.n 1 = q.n + 1 := by
    rw [hn, Word32.add_of_lt (by omega)]
  refine ⟨rfl, hadd, ?_, ?_, ?_, ?_, ?_⟩
  · show q'.size = q.size
    rw [hq'.fields, withBuf_size, withBuf_size]
  · show q'.room = q.room
    rw [hq'.fields, withBuf_room, withBuf_room]
  · show Ordered q'.buf (Word32.add q'.n 1)
    rw [hadd]
    apply hq'.ordered
  · show BinaryHeap.contents q'.buf (Word32.add q'.n 1) = _
    rw [hadd, hq'.contents, withBuf_buf, contents_succ, Function.update_self, contents]
    congr 1
    apply contents_congr
    intro i hi
    rw [Function.update_of_ne (Nat.ne_of_lt hi)]
  · intro i hi
    show q'.buf i = q.buf i
    rw [hq'.frame i hi, withBuf_buf, Function.update_of_ne (Nat.ne_of_gt hi)]

/-- Nothing is added to a queue that is full. -/
theorem enqueueHeapQ_full (hsize : q.n = q.size) (k x : ℕ) :
  enqueueHeapQ k x q = .done false q
  := congrFun (if_neg (by rw [hsize]; exact Nat.lt_irrefl _)) q

/-- A largest value is taken from a heap of two values or more. -/
theorem dequeueHeapQ_removed (h : Ordered q.buf q.n) (hn : 2 ≤ q.n) (hroom : q.n ≤ q.room)
    (hk : q.n ≤ k) :
  Returns q (dequeueHeapQ k) fun r q' => r.1 = true ∧ Removed q r.2 q'
  := by
  have hfits := q.room_fits
  have hsub : Word32.sub q.n 1 = q.n - 1 := Word32.sub_of_le (by omega) (by omega)
  have hsub' : Word32.sub (Word32.sub q.n 1) 1 = q.n - 1 - 1 := by
    rw [hsub]
    apply Word32.sub_of_le
    · omega
    · omega
  apply Returns.step (load_apply (by omega))
  apply Returns.modify
  rintro q₁ hq₁
  have hn₁ : q₁.n = q.n - 1 := by rw [hq₁, ← hsub]
  have hbuf₁ : q₁.buf = q.buf := by rw [hq₁]
  have hroom₁ : q₁.room = q.room := by rw [hq₁]
  have hsize₁ : q₁.size = q.size := by rw [hq₁]
  apply Returns.get
  apply Returns.step (load_apply (by omega))
  apply Returns.step (store_apply (by omega))
  rw [hn₁, Word32.sub_of_le (by omega) (by omega), hbuf₁]
  have hdown : DownOrder (q₁.withBuf (Function.update q.buf 0 (q.buf (q.n - 1)))).buf (q.n - 1) 0 :=
    (h.mono (Nat.sub_le _ _)).replace _
  have hroom₂ : q.n - 1 ≤ (q₁.withBuf (Function.update q.buf 0 (q.buf (q.n - 1)))).room := by
    rw [withBuf_room]
    omega
  apply Returns.bind (downHeapQ_sifted hdown (by omega) hroom₂ (by omega))
  rintro _ q' hq'
  apply Returns.get
  apply Returns.pure
  have hn' : q'.n = q.n - 1 := by rw [hq'.fields, withBuf_n, withBuf_n, hn₁]
  refine ⟨?_, ?_, ?_, ?_, ?_, ?_, ?_, ?_⟩
  · rw [decide_eq_true_iff]
    omega
  · omega
  · rw [hq'.fields, withBuf_size, withBuf_size, hsize₁]
  · rw [hq'.fields, withBuf_room, withBuf_room, hroom₁]
  · rw [hn']
    apply hq'.ordered
  · intro y hy
    obtain ⟨j, hj, rfl⟩ := mem_contents.mp hy
    apply h.le_root hj
  · have hpop := contents_pop q.buf (q.n - 1)
    rw [Nat.sub_add_cancel (by omega)] at hpop
    rw [contents, hpop, contents, hn', hq'.contents, withBuf_buf]
  · intro i hi
    rw [hq'.frame i (by omega), withBuf_buf, Function.update_of_ne (by omega)]

/-- The operations keep the order of a heap and its values, and what they touch is in the memory
of the values: of one more when one is added, whatever memory there is behind it. -/
theorem heapQ_keeps_order (h : Ordered q.buf q.n) :
  (q.n < q.size → q.n < q.room → ∀ x k, q.n < k →
      Returns q (enqueueHeapQ k x) fun ok q' => ok = true ∧ Added q x q')
    ∧ (q.n = q.size → ∀ x k, enqueueHeapQ k x q = .done false q)
    ∧ (2 ≤ q.n → q.n ≤ q.room → ∀ k, q.n ≤ k →
      Returns q (dequeueHeapQ k) fun r q' => r.1 = true ∧ Removed q r.2 q')
  := by
  refine ⟨?_, ?_, ?_⟩
  · intro hsize hroom x k hk
    apply enqueueHeapQ_added h hsize hroom hk
  · intro hsize x k
    apply enqueueHeapQ_full hsize
  · intro hn hroom k hk
    apply dequeueHeapQ_removed h hn hroom hk

theorem heapQ_keeps_order_pair :
  ∃ q : HeapQ, q.n = 2 ∧ q.size = 3
    ∧ Returns q (enqueueHeapQ 3 7) (fun ok q' => ok = true ∧ Added q 7 q')
    ∧ Returns q (dequeueHeapQ 2) (fun r q' => r.1 = true ∧ Removed q r.2 q')
  := by
  refine ⟨⟨2, 3, 3, fun i => if i = 0 then 5 else 4, by decide⟩, rfl, rfl, ?_⟩
  have hordered : Ordered (fun i => if i = 0 then 5 else 4) 2 := by
    intro j hj hpos
    obtain rfl : j = 1 := by omega
    decide
  obtain ⟨hadd, -, hremove⟩ :=
    heapQ_keeps_order (q := ⟨2, 3, 3, fun i => if i = 0 then 5 else 4, by decide⟩) hordered
  exact ⟨hadd (by decide) (by decide) 7 3 (by decide), hremove (by decide) (by decide) 2 (by decide)⟩

end HeapQ

end Queues
