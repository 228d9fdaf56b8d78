import Mathlib.Algebra.Group.Nat.Defs
import Manos.Dev.Fifo
import Manos.Lib.Objects

/-!
# Character queues as bounded queues

The functions of `fifoq` as calls of one queue, against a first-in-first-out queue that holds
at most as many characters as the queue was made for.
-/

namespace Dev

open Exec

/-! ### The calls of a queue -/

/-- The calls of a queue. -/
inductive FifoCall where
  | enqueue (c : Byte)
  | dequeue
  | isFull
  | clear
deriving DecidableEq, Repr

/-- What the calls return; `dequeue` stores a character if it returns one. -/
inductive FifoResult where
  | enqueued (ok : Bool)
  | dequeued (c : Option Byte)
  | full (b : Bool)
  | cleared
deriving DecidableEq, Repr

namespace FifoCall

/-- A call of the functions of `fifoq`. -/
def run : FifoCall → Exec (Option FifoQ) FifoResult
  | enqueue c => do
      let ok ← enqueueFifoQ c
      return .enqueued ok
  | dequeue => do
      let c ← dequeueFifoQ
      return .dequeued c
  | isFull => do
      let q ← get
      return .full (isFullFifoQ q)
  | clear => do
      match ← get with
      | none => fault (.null "q")
      | some q =>
          modify fun _ => some (clearFifoQ q)
          return .cleared

end FifoCall

/-- `newFifoQ`, which asks for the bytes of a queue and its buffer.  A queue for which it gets
less than the fields take is cleared outside of its block. -/
def makeFifoQ (syskmalloc : ℕ → Option (ℕ → Byte)) (size : ℕ) : Exec (Option FifoQ) Unit :=
  match syskmalloc ((16 + size) % 2 ^ 32) with
  | none => modify fun _ => none
  | some mem =>
      if (16 + size) % 2 ^ 32 < 16 then fault (.wild "q")
      else modify fun _ => newFifoQ size (some mem)

/-! ### Bounded queues -/

/-- A first-in-first-out queue that holds at most `size` characters. -/
def boundedQueue (size : ℕ) : Spec FifoCall (List Byte) FifoResult where
  result
    | .enqueue _, l => .enqueued (l.length < size)
    | .dequeue, l => .dequeued l.head?
    | .isFull, l => .full (l.length = size)
    | .clear, _ => .cleared
  next
    | .enqueue c, l => if l.length < size then l ++ [c] else l
    | .dequeue, l => l.tail
    | .isFull, l => l
    | .clear, _ => []

/-- A call was refused: it returned `0` for a queue that is full or empty. -/
def FifoResult.Refused : FifoResult → Prop
  | .enqueued ok => ok = false
  | .dequeued c => c = none
  | .full _ => False
  | .cleared => False

/-- The pointer to a queue for `size` characters that holds the characters `l`. -/
structure FifoQ.Holds (size : ℕ) (p : Option FifoQ) (l : List Byte) : Prop where
  queue : ∃ q : FifoQ, p = some q ∧ q.WellFormed ∧ q.size = size ∧ q.contents = l

namespace FifoQ

variable {size : ℕ} {p : Option FifoQ} {l : List Byte} {q : FifoQ}

theorem length_contents (q : FifoQ) :
  q.contents.length = q.count
  := Circular.length_slice _ _ _ _

theorem count_le (h : q.WellFormed) :
  q.count ≤ q.size
  := by
  have hr := h.read_lt
  have hw := h.write_lt
  rcases count_cases h with ⟨-, -, hc⟩ | ⟨-, -, hc⟩ | ⟨-, hge, hc⟩
  · omega
  · omega
  · omega

/-- A queue is full when it holds as many characters as it was made for. -/
theorem isFullFifoQ_iff (h : q.WellFormed) :
  isFullFifoQ (some q) = true ↔ q.contents.length = q.size
  := by
  rw [length_contents]
  constructor
  · intro hfull
    have hsome : q.isEmpty = false ∧ q.readOffset = q.writeOffset := by
      simpa [isFullFifoQ] using hfull
    rcases count_cases h with ⟨he, -, -⟩ | ⟨-, hlt, -⟩ | ⟨-, -, hc⟩
    · rw [hsome.1] at he
      contradiction
    · omega
    · omega
  · intro hcount
    by_contra hfull
    have := count_lt h (by simpa using hfull)
    omega

theorem isFullFifoQ_eq_decide (h : q.WellFormed) :
  isFullFifoQ (some q) = decide (q.contents.length = q.size)
  := by
  rw [Bool.eq_iff_iff, isFullFifoQ_iff h, decide_eq_true_iff]

/-- The functions of `fifoq` are those of a bounded queue. -/
theorem refines (size : ℕ) :
  Refines (Holds size) FifoCall.run (boundedQueue size)
  := by
  rintro call p l ⟨q, rfl, hq, rfl, rfl⟩
  have hle := count_le hq
  rw [← length_contents] at hle
  cases call with
  | enqueue c =>
      cases hfull : isFullFifoQ (some q) with
      | true =>
          have hlen := (isFullFifoQ_iff hq).mp hfull
          apply Returns.step (enqueueFifoQ_full hfull c)
          apply Returns.pure
          simp only [boundedQueue, hlen, Nat.lt_irrefl, decide_false, if_false, true_and]
          exact ⟨q, rfl, hq, rfl, rfl⟩
      | false =>
          have hlt : q.contents.length < q.size := by
            rw [length_contents]
            apply count_lt hq hfull
          apply Returns.step (enqueueFifoQ_put hq hfull c)
          apply Returns.pure
          simp only [boundedQueue, hlt, decide_true, if_true, true_and]
          exact ⟨q.put c, rfl, put_wellFormed hq c, rfl, contents_put hq hfull c⟩
  | dequeue =>
      cases he : q.isEmpty with
      | true =>
          have hnil := (contents_eq_nil_iff hq).mpr he
          apply Returns.step (dequeueFifoQ_empty he)
          apply Returns.pure
          simp only [boundedQueue, hnil, List.head?_nil, List.tail_nil, true_and]
          exact ⟨q, rfl, hq, rfl, hnil⟩
      | false =>
          apply Returns.step (dequeueFifoQ_take hq he)
          apply Returns.pure
          simp only [boundedQueue, contents_take hq he, List.head?_cons, List.tail_cons, true_and]
          exact ⟨q.take, rfl, take_wellFormed hq, rfl, rfl⟩
  | isFull =>
      apply Returns.get
      apply Returns.pure
      refine ⟨?_, q, rfl, hq, rfl, rfl⟩
      rw [isFullFifoQ_eq_decide hq, boundedQueue]
  | clear =>
      apply Returns.get
      apply Returns.step (modify_apply _ _)
      apply Returns.pure
      refine ⟨rfl, clearFifoQ q, rfl, ?_, rfl, clearFifoQ_contents q⟩
      apply clearFifoQ_wellFormed
      apply Nat.zero_lt_of_lt hq.read_lt

/-- A call that is refused changes nothing. -/
theorem run_refused {call : FifoCall} {r : FifoResult} {p' : Option FifoQ}
    (h : Holds size p l) (hrun : call.run p = .done r p') (hr : r.Refused) :
  p' = p
  := by
  obtain ⟨q, rfl, hq, -, -⟩ := h
  cases call with
  | enqueue c =>
      cases hfull : isFullFifoQ (some q) with
      | true =>
          rw [FifoCall.run, bind_done (enqueueFifoQ_full hfull c)] at hrun
          cases hrun
          rfl
      | false =>
          rw [FifoCall.run, bind_done (enqueueFifoQ_put hq hfull c)] at hrun
          cases hrun
          cases hr
  | dequeue =>
      cases he : q.isEmpty with
      | true =>
          rw [FifoCall.run, bind_done (dequeueFifoQ_empty he)] at hrun
          cases hrun
          rfl
      | false =>
          rw [FifoCall.run, bind_done (dequeueFifoQ_take hq he)] at hrun
          cases hrun
          cases hr
  | isFull =>
      cases hrun
      rfl
  | clear =>
      cases hrun
      cases hr

/-- A queue that was made is empty. -/
theorem makeFifoQ_holds {syskmalloc : ℕ → Option (ℕ → Byte)} {p₀ : Option FifoQ}
    (hsize : 1 ≤ size) (hmake : makeFifoQ syskmalloc size p₀ = .done () p) (hp : p ≠ none) :
  Holds size p []
  := by
  rw [makeFifoQ] at hmake
  cases hmem : syskmalloc ((16 + size) % 2 ^ 32) with
  | none =>
      simp only [hmem] at hmake
      cases hmake
      contradiction
  | some mem =>
      simp only [hmem] at hmake
      by_cases hsmall : (16 + size) % 2 ^ 32 < 16
      · rw [if_pos hsmall] at hmake
        cases hmake
      · rw [if_neg hsmall] at hmake
        cases hmake
        exact ⟨_, rfl, clearFifoQ_wellFormed hsize, rfl, clearFifoQ_contents _⟩

end FifoQ

/-- A queue that was made is a bounded queue: whatever the calls, they return what those of a
bounded queue do, the offsets are in the buffer, and a call that is refused changes nothing. -/
theorem fifoQ_refines_bounded {size : ℕ} {syskmalloc : ℕ → Option (ℕ → Byte)}
    {p₀ p : Option FifoQ} (hsize : 1 ≤ size)
    (hmake : makeFifoQ syskmalloc size p₀ = .done () p) (hp : p ≠ none)
    (calls : List FifoCall) :
  Returns p (Exec.calls FifoCall.run calls) fun results p' =>
    results = (boundedQueue size).results calls [] ∧
      ∃ q : FifoQ, p' = some q ∧ q.readOffset < size ∧ q.writeOffset < size ∧
        q.contents = (boundedQueue size).after calls [] ∧
        ∀ (call : FifoCall) r p'', call.run p' = .done r p'' → r.Refused → p'' = p'
  := by
  have hnew := FifoQ.makeFifoQ_holds hsize hmake hp
  apply (Refines.calls (FifoQ.refines size) hnew calls).mono
  rintro results p' ⟨hresults, hp'⟩
  refine ⟨hresults, ?_⟩
  obtain ⟨q, rfl, hq, rfl, hcontents⟩ := hp'.queue
  refine ⟨q, rfl, hq.read_lt, hq.write_lt, hcontents, ?_⟩
  intro call r p'' hrun hr
  apply FifoQ.run_refused hp' hrun hr

/-- A queue for one character: the second character is refused, and the first one leaves. -/
theorem fifoQ_refines_bounded_one :
  ∃ p, makeFifoQ (fun _ => some fun _ => 0) 1 none = .done () p ∧
    Returns p (Exec.calls FifoCall.run [.enqueue 7, .enqueue 8, .dequeue, .isFull])
      fun results _ =>
        results = [.enqueued true, .enqueued false, .dequeued (some 7), .full false]
  := by
  refine ⟨_, rfl, ?_⟩
  apply (@fifoQ_refines_bounded 1 (fun _ => some fun _ => 0) none _ (le_refl 1) rfl
    (Option.some_ne_none _) _).mono
  rintro results p' ⟨hresults, -⟩
  rw [hresults]
  rfl

end Dev
