import Manos.Lib.Objects
import Manos.Queues.HeapQ

/-!
# Filling and draining a priority queue

Runs of `enqueueHeapQ` into a fresh queue and of `dequeueHeapQ` out of it.  The values leave the
highest first, and the flag of `dequeueHeapQ` says whether more are left.
-/

namespace Queues

open Exec BinaryHeap

namespace HeapQ

variable {q q' : HeapQ} {k x : ℕ} {xs : List ℕ}

/-- The values `xs` are enqueued one after another. -/
def enqueues (k : ℕ) (xs : List ℕ) : Exec HeapQ (List Bool) := calls (enqueueHeapQ k) xs

/-- So many calls of `dequeueHeapQ` one after another. -/
def dequeues (k m : ℕ) : Exec HeapQ (List (Bool × ℕ)) :=
  calls (fun _ : Unit => dequeueHeapQ k) (List.replicate m ())

/-! ### Runs over a heap -/

/-- The values are added to a heap that has room for them. -/
theorem enqueues_added (h : Ordered q.buf q.n) (hsize : q.n + xs.length ≤ q.size)
    (hroom : q.size ≤ q.room) (hk : q.size ≤ k) :
  Returns q (enqueues k xs) fun oks q' => (∀ ok ∈ oks, ok = true) ∧ Ordered q'.buf q'.n
    ∧ q'.n = q.n + xs.length ∧ q'.room = q.room ∧ q'.contents = ↑xs + q.contents
  := by
  induction xs generalizing q with
  | nil =>
      apply Returns.pure
      refine ⟨?_, h, rfl, rfl, ?_⟩
      · intro ok hok
        cases hok
      · rw [Multiset.coe_nil, Multiset.zero_add]
  | cons x xs ih =>
      rw [List.length_cons] at hsize
      apply Returns.bind (enqueueHeapQ_added h (by omega) (by omega) (by omega))
      rintro ok q' ⟨rfl, hq'⟩
      have hn := hq'.n
      have hsize' := hq'.size
      have hroom' := hq'.room
      apply Returns.bind (ih hq'.ordered (by omega) (by omega) (by omega))
      rintro oks q'' ⟨hoks, hordered, hn', hroom'', hcontents⟩
      apply Returns.pure
      refine ⟨?_, hordered, ?_, ?_, ?_⟩
      · intro ok hok
        rcases List.mem_cons.mp hok with rfl | hok
        · rfl
        · apply hoks ok hok
      · rw [List.length_cons]
        omega
      · rw [hroom'', hroom']
      · rw [hcontents, hq'.contents, ← Multiset.cons_coe, Multiset.cons_add, Multiset.add_cons]

/-- While a value is left, the values leave the highest first, and every call returns `1`. -/
theorem dequeues_removed {m : ℕ} (h : Ordered q.buf q.n) (hm : m < q.n) (hroom : q.n ≤ q.room)
    (hk : q.n ≤ k) :
  Returns q (dequeues k m) fun rs q' => (∀ r ∈ rs, r.1 = true) ∧ rs.Pairwise (fun r r' => r'.2 ≤ r.2)
    ∧ (∀ r ∈ rs, ∀ y ∈ q'.contents, y ≤ r.2) ∧ Ordered q'.buf q'.n ∧ q'.n + m = q.n
    ∧ q.contents = ↑(rs.map Prod.snd) + q'.contents
  := by
  induction m generalizing q with
  | zero =>
      apply Returns.pure
      refine ⟨?_, List.Pairwise.nil, ?_, h, rfl, ?_⟩
      · intro r hr
        cases hr
      · intro r hr
        cases hr
      · rw [List.map_nil, Multiset.coe_nil, Multiset.zero_add]
  | succ m ih =>
      apply Returns.bind (dequeueHeapQ_removed h (by omega) hroom hk)
      rintro r q' ⟨hr, hq'⟩
      have hn := hq'.n
      have hroom' := hq'.room
      apply Returns.bind (ih hq'.ordered (by omega) (by omega) (by omega))
      rintro rs q'' ⟨hrs, hsorted, hleft, hordered, hn', hcontents⟩
      have hall : q.contents = r.2 ::ₘ (↑(rs.map Prod.snd) + q''.contents) := by
        rw [hq'.contents, hcontents]
      apply Returns.pure
      refine ⟨?_, ?_, ?_, hordered, by omega, ?_⟩
      · intro r' hr'
        rcases List.mem_cons.mp hr' with rfl | hr'
        · apply hr
        · apply hrs r' hr'
      · apply List.Pairwise.cons _ hsorted
        intro r' hr'
        apply hq'.largest
        rw [hall]
        apply Multiset.mem_cons_of_mem
        apply Multiset.mem_add.mpr
        left
        exact List.mem_map_of_mem hr'
      · intro r' hr' y hy
        rcases List.mem_cons.mp hr' with rfl | hr'
        · apply hq'.largest
          rw [hall]
          apply Multiset.mem_cons_of_mem
          apply Multiset.mem_add.mpr
          right
          apply hy
        · apply hleft r' hr' y hy
      · rw [hall, List.map_cons, ← Multiset.cons_coe, Multiset.cons_add]

/-! ### The counter -/

/-- The fields that a pass does not change. -/
def counts (q : HeapQ) : ℕ × ℕ := (q.n, q.room)

theorem load_counts (i : ℕ) :
  Preserves counts (load i)
  := by
  apply Preserves.bind (Preserves.get _)
  intro q
  split
  · apply Preserves.pure
  · apply Preserves.fault

theorem store_counts (i x : ℕ) :
  Preserves counts (store i x)
  := by
  apply Preserves.bind (Preserves.get _)
  intro q
  split
  · apply Preserves.modify
    intro q
    rfl
  · apply Preserves.fault

theorem swap_counts (i j : ℕ) :
  Preserves counts (swap i j)
  := by
  apply Preserves.bind (load_counts i)
  intro tmp
  apply Preserves.bind (load_counts j)
  intro x
  apply Preserves.bind (store_counts i x)
  intro _
  apply store_counts

theorem upHeapQ_counts (k i j : ℕ) :
  Preserves counts (upHeapQ k i j)
  := by
  induction k generalizing j with
  | zero => apply Preserves.fault
  | succ k ih =>
      apply Preserves.when
      apply Preserves.bind (load_counts _)
      intro x
      apply Preserves.bind (load_counts _)
      intro y
      apply Preserves.when
      apply Preserves.bind (swap_counts _ _)
      intro _
      apply ih

theorem maxIndex_counts (i j l : ℕ) :
  Preserves counts (maxIndex i j l)
  := by
  rw [maxIndex]
  split
  · apply Preserves.pure
  · apply Preserves.bind (load_counts _)
    intro x
    apply Preserves.bind (load_counts _)
    intro y
    apply Preserves.pure

theorem downHeapQ_counts (k i j : ℕ) :
  Preserves counts (downHeapQ k i j)
  := by
  induction k generalizing i with
  | zero => apply Preserves.fault
  | succ k ih =>
      apply Preserves.when
      apply Preserves.bind (maxIndex_counts _ _ _)
      intro max
      apply Preserves.bind (load_counts _)
      intro x
      apply Preserves.bind (load_counts _)
      intro y
      apply Preserves.when
      apply Preserves.bind (swap_counts _ _)
      intro _
      apply ih

/-- A value that was enqueued is counted, and there is memory for it. -/
theorem enqueueHeapQ_counts (h : enqueueHeapQ k x q = .done true q') :
  q.n < q.room ∧ q'.n = q.n + 1 ∧ q'.room = q.room
  := by
  have hfits := q.room_fits
  rw [enqueueHeapQ, bind_done (get_apply q)] at h
  by_cases hsize : q.n < q.size
  · rw [if_pos hsize] at h
    obtain ⟨_, q₁, hstore, hrest⟩ := bind_eq_done_iff.mp h
    obtain ⟨_, q₂, hup, hlast⟩ := bind_eq_done_iff.mp hrest
    obtain ⟨hroom, rfl⟩ := store_eq_done_iff.mp hstore
    have hcounts := (upHeapQ_counts _ _ _).done hup
    rw [counts, counts, Prod.mk.injEq] at hcounts
    cases hlast
    refine ⟨hroom, ?_, hcounts.2⟩
    show Word32.add q₂.n 1 = q.n + 1
    rw [hcounts.1, withBuf_n, Word32.add_of_lt (by omega)]
  · rw [if_neg hsize] at h
    cases h

/-- The value that `dequeueHeapQ` moves to the top is in the memory, and the flag is set when
values are left. -/
theorem dequeueHeapQ_counts {r : Bool × ℕ} (h : dequeueHeapQ k q = .done r q') :
  Word32.sub q.n 1 < q.room ∧ q'.n = Word32.sub q.n 1 ∧ r.1 = decide (0 < q'.n)
  := by
  obtain ⟨x, q₁, hload, h₁⟩ := bind_eq_done_iff.mp h
  obtain ⟨-, -, rfl⟩ := load_eq_done_iff.mp hload
  generalize hq₂ : ({ q₁ with n := Word32.sub q₁.n 1 } : HeapQ) = q₂
  rw [bind_done (modify_apply _ _), bind_done (get_apply _), hq₂] at h₁
  obtain ⟨y, q₃, hload', h₃⟩ := bind_eq_done_iff.mp h₁
  obtain ⟨hlast, -, rfl⟩ := load_eq_done_iff.mp hload'
  obtain ⟨_, q₄, hstore, h₄⟩ := bind_eq_done_iff.mp h₃
  obtain ⟨-, rfl⟩ := store_eq_done_iff.mp hstore
  obtain ⟨_, q₅, hdown, h₅⟩ := bind_eq_done_iff.mp h₄
  have hcounts := congrArg Prod.fst ((downHeapQ_counts _ _ _).done hdown)
  simp only [counts, withBuf_n] at hcounts
  have hn : q₃.n = Word32.sub q₁.n 1 := by rw [← hq₂]
  have hroom : q₃.room = q₁.room := by rw [← hq₂]
  rw [hn, hroom] at hlast
  cases h₅
  exact ⟨hlast, by rw [hcounts, hn], rfl⟩

theorem enqueues_counts (hn : q.n ≤ q.room)
    (h : enqueues k xs q = .done (List.replicate xs.length true) q') :
  q'.n = q.n + xs.length ∧ q'.n ≤ q'.room
  := by
  induction xs generalizing q with
  | nil =>
      cases h
      exact ⟨rfl, hn⟩
  | cons x xs ih =>
      obtain ⟨ok, q₁, hfirst, h⟩ := bind_eq_done_iff.mp h
      obtain ⟨oks, q₂, hrest, h⟩ := bind_eq_done_iff.mp h
      rw [List.length_cons, List.replicate_succ] at h
      cases h
      obtain ⟨hlt, hn₁, hroom₁⟩ := enqueueHeapQ_counts hfirst
      obtain ⟨hn', hroom'⟩ := ih (by omega) hrest
      refine ⟨?_, hroom'⟩
      rw [hn', hn₁, List.length_cons]
      omega

/-- The call that takes the last value returns `0`. -/
theorem dequeues_flag {m : ℕ} {rs : List (Bool × ℕ)} (hn : q.n = m + 1) (hlt : q.n < 2 ^ 32)
    (h : dequeues k (m + 1) q = .done rs q') :
  ∃ r ∈ rs, r.1 = false
  := by
  induction m generalizing q rs with
  | zero =>
      obtain ⟨r, q₁, hfirst, h⟩ := bind_eq_done_iff.mp h
      obtain ⟨-, hn₁, hflag⟩ := dequeueHeapQ_counts hfirst
      cases h
      refine ⟨r, List.mem_cons_self, ?_⟩
      rw [hflag, hn₁, hn]
      rfl
  | succ m ih =>
      obtain ⟨r, q₁, hfirst, h⟩ := bind_eq_done_iff.mp h
      obtain ⟨rs', q₂, hrest, h⟩ := bind_eq_done_iff.mp h
      cases h
      obtain ⟨-, hn₁, -⟩ := dequeueHeapQ_counts hfirst
      rw [Word32.sub_of_le (by omega) hlt] at hn₁
      obtain ⟨r', hr', hflag⟩ := ih (by omega) (by omega) hrest
      exact ⟨r', List.mem_cons_of_mem _ hr', hflag⟩

/-- A call for an empty queue reads outside of its memory. -/
theorem dequeueHeapQ_empty (hn : q.n = 0) (r : Bool × ℕ) :
  dequeueHeapQ k q ≠ .done r q'
  := by
  intro h
  have hfits := q.room_fits
  have hlast := (dequeueHeapQ_counts h).1
  rw [hn, Word32.sub_of_lt (by omega) (by omega)] at hlast
  omega

/-! ### Draining in order -/

/-- The queue with at most so many values in its memory. -/
def within (q : HeapQ) (m : ℕ) : HeapQ where
  n := q.n
  size := q.size
  room := min q.room m
  buf := q.buf
  room_fits := by
    have := q.room_fits
    omega

/-- The queue with the memory of `p`. -/
def withRoomOf (q p : HeapQ) : HeapQ where
  n := q.n
  size := q.size
  room := p.room
  buf := q.buf
  room_fits := p.room_fits

/-- The values `xs` are enqueued into `q`; as many calls of `dequeueHeapQ` return `1` and give the
values lowest first, in the memory of that many values; and a further call returns `0` and leaves
the queue, which is empty, as it is. -/
def DrainsInOrder (k : ℕ) (q : HeapQ) (xs : List ℕ) : Prop :=
  ∃ (q₁ q₂ : HeapQ) (ys : List ℕ) (y : ℕ),
    enqueues k xs q = .done (List.replicate xs.length true) q₁
      ∧ dequeues k xs.length (q₁.within xs.length) = .done (ys.map fun y => (true, y)) q₂
      ∧ ys.Perm xs ∧ ys.Pairwise (· ≤ ·) ∧ q₂.n = 0
      ∧ dequeueHeapQ k (q₂.withRoomOf q₁) = .done (false, y) (q₂.withRoomOf q₁)

/-- No queue drains in order, whatever is put into it. -/
theorem not_drainsInOrder (hn : q.n = 0) (k : ℕ) (xs : List ℕ) :
  ¬ DrainsInOrder k q xs
  := by
  rintro ⟨q₁, q₂, ys, y, henqueues, hdequeues, -, -, hn₂, hfurther⟩
  obtain ⟨hn₁, hroom₁⟩ := enqueues_counts (by omega) henqueues
  have hfits := q₁.room_fits
  cases xs with
  | nil => exact dequeueHeapQ_empty (q := q₂.withRoomOf q₁) hn₂ _ hfurther
  | cons x xs =>
      rw [hn, Nat.zero_add, List.length_cons] at hn₁
      have hn' : (q₁.within (x :: xs).length).n = xs.length + 1 := hn₁
      obtain ⟨r, hr, hflag⟩ := dequeues_flag hn' (by omega) hdequeues
      obtain ⟨y', -, rfl⟩ := List.mem_map.mp hr
      contradiction

end HeapQ

/-- A queue that was made is empty. -/
theorem newHeapQ_empty {syskmalloc : ℕ → Option (ℕ → ℕ)} {size : ℕ} {p₀ : Option HeapQ}
    {q : HeapQ} (hnew : newHeapQ syskmalloc size p₀ = .done () (some q)) :
  q.n = 0 ∧ q.size = size
  := by
  rw [newHeapQ] at hnew
  cases hmem : syskmalloc (heapQBytes size) with
  | none =>
      simp only [hmem] at hnew
      cases hnew
  | some mem =>
      simp only [hmem] at hnew
      by_cases hsmall : heapQBytes size < 8
      · rw [if_pos hsmall] at hnew
        cases hnew
      · rw [if_neg hsmall] at hnew
        cases hnew
        exact ⟨rfl, rfl⟩

/-- The values of a fresh queue leave the highest first, with a return of `1` while some are
left. -/
theorem heapQ_drains_down {syskmalloc : ℕ → Option (ℕ → ℕ)} {size : ℕ} {p₀ : Option HeapQ}
    {q : HeapQ} (hnew : newHeapQ syskmalloc size p₀ = .done () (some q)) (hroom : size ≤ q.room)
    {xs : List ℕ} (hlen : xs.length ≤ size) {k m : ℕ} (hk : size ≤ k) (hm : m < xs.length) :
  Returns q (HeapQ.enqueues k xs >>= fun _ => HeapQ.dequeues k m) fun rs q' =>
    (∀ r ∈ rs, r.1 = true) ∧ rs.Pairwise (fun r r' => r'.2 ≤ r.2)
      ∧ (∀ r ∈ rs, ∀ y ∈ q'.contents, y ≤ r.2)
      ∧ (↑xs : Multiset ℕ) = ↑(rs.map Prod.snd) + q'.contents
  := by
  obtain ⟨hn, rfl⟩ := newHeapQ_empty hnew
  have hempty : Ordered q.buf q.n := by
    intro j hj
    omega
  have hnone : q.contents = 0 := by rw [HeapQ.contents, hn]; rfl
  apply Returns.bind (HeapQ.enqueues_added hempty (by omega) hroom hk)
  rintro oks q₁ ⟨-, hordered, hn₁, hroom₁, hcontents⟩
  apply (HeapQ.dequeues_removed hordered (by omega) (by omega) (by omega)).mono
  rintro rs q' ⟨hrs, hsorted, hleft, -, -, hall⟩
  refine ⟨hrs, hsorted, hleft, ?_⟩
  rw [← hall, hcontents, hnone, Multiset.add_zero]

theorem heapQ_drains_down_two :
  ∃ q, newHeapQ (fun _ => some fun _ => 0) 7 none = .done () (some q)
    ∧ Returns q (HeapQ.enqueues 7 [5, 9, 2] >>= fun _ => HeapQ.dequeues 7 2) fun rs q' =>
      (∀ r ∈ rs, r.1 = true) ∧ rs.Pairwise (fun r r' => r'.2 ≤ r.2)
        ∧ (∀ r ∈ rs, ∀ y ∈ q'.contents, y ≤ r.2)
        ∧ (↑[5, 9, 2] : Multiset ℕ) = ↑(rs.map Prod.snd) + q'.contents
  := ⟨_, rfl, @heapQ_drains_down (fun _ => some fun _ => 0) 7 none _ rfl (by decide) [5, 9, 2]
    (by decide) 7 2 (by decide) (by decide)⟩

/-- A fresh queue never drains in order: the call that takes the last value returns `0`, and a
call for an empty queue reads outside of it. -/
theorem heapQ_never_drains {syskmalloc : ℕ → Option (ℕ → ℕ)} {size : ℕ} {p₀ : Option HeapQ}
    {q : HeapQ} (hnew : newHeapQ syskmalloc size p₀ = .done () (some q)) (k : ℕ) (xs : List ℕ) :
  ¬ q.DrainsInOrder k xs
  := HeapQ.not_drainsInOrder (newHeapQ_empty hnew).1 k xs

theorem heapQ_never_drains_one :
  ∃ q, newHeapQ (fun _ => some fun _ => 0) 1 none = .done () (some q) ∧ ¬ q.DrainsInOrder 2 [5]
  := ⟨_, rfl, @heapQ_never_drains (fun _ => some fun _ => 0) 1 none _ rfl 2 [5]⟩

/-- Of two values the larger one leaves first, and the call that gives the other one returns
`0`. -/
theorem heapQ_drains_highest_first :
  ∃ q, newHeapQ (fun _ => some fun _ => 0) 7 none = .done () (some q)
    ∧ Returns q (HeapQ.enqueues 3 [1, 2] >>= fun _ => HeapQ.dequeues 3 2)
      (fun rs _ => rs = [(true, 2), (false, 1)])
    ∧ ∀ k, ¬ q.DrainsInOrder k [1, 2]
  := by
  refine ⟨_, rfl, ?_, fun k => HeapQ.not_drainsInOrder rfl k [1, 2]⟩
  apply Returns.of_value?
  decide +kernel

end Queues
