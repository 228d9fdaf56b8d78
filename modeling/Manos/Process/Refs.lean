import Manos.Lib.Objects
import Manos.Process.Lock
import Mathlib.Data.Int.Notation

/-!
# Reference counts

The functions of `ref.c`, access by access, and the runs of any number of processes that call
them.  The lock of a count makes each call take effect at once: the calls return what they would
return one after another.
-/

namespace Process

open Exec

/-! ### The functions -/

/-- The calls of `ref.c`. -/
inductive RefCall where
  /-- `getReg` -/
  | get
  /-- `incRef` -/
  | inc
  /-- `decRef` -/
  | dec
deriving DecidableEq

/-- What a call does to the count that it has loaded.  `getReg` stores nothing; here it stores what it
has loaded.  The count is an `int`, and the calls are taken to keep it in its range. -/
def RefCall.change : RefCall → ℤ → ℤ
  | get, n => n
  | inc, n => n + 1
  | dec, n => n - 1

/-- A count and its calls. -/
def refSpec : Spec RefCall ℤ ℤ := ⟨RefCall.change, RefCall.change⟩

/-- Where a process is in a call. -/
inductive RefPoint where
  /-- in none -/
  | idle
  /-- in `syslock` -/
  | locking (call : RefCall)
  /-- it has the lock -/
  | locked (call : RefCall)
  /-- it has loaded the count -/
  | loaded (call : RefCall) (n : ℤ)
  /-- it has stored the count, and keeps it in `x` -/
  | stored (call : RefCall) (x : ℤ)
deriving DecidableEq

/-- The process is between `syslock` and `sysunlock`. -/
def RefPoint.inside : RefPoint → Bool
  | idle => false
  | locking _ => false
  | locked _ => true
  | loaded _ _ => true
  | stored _ _ => true

/-! ### Runs -/

/-- `Ref`, with the processes that use it. -/
structure Counting (ι : Type) where
  locking : Locking ι
  count : ℤ
  point : ι → RefPoint
  /-- the calls that have returned and what they returned, in this order -/
  returned : List (RefCall × ℤ)

/-- `INIT_REF` -/
def Counting.init (ι : Type) : Counting ι := ⟨.init ι, 0, fun _ => .idle, []⟩

/-- What a process does next. -/
inductive CountEvent (ι : Type) where
  | call (i : ι) (call : RefCall)
  /-- it is in the critical region of `syslock` -/
  | turn (i : ι)
  | load (i : ι)
  | store (i : ι)
  /-- it calls `sysunlock`, and the call returns -/
  | unlock (i : ι)

section

variable {ι : Type} [DecidableEq ι] {pid : ι → ℤ} {s s' : Counting ι} {i : ι}

/-- A process goes on in its call. -/
def Counting.move (s : Counting ι) (i : ι) (point : RefPoint) : ι → RefPoint :=
  Function.update s.point i point

/-- The steps of processes with the given pids. -/
inductive CountStep (pid : ι → ℤ) (s : Counting ι) : CountEvent ι → Counting ι → Prop where
  | call {i : ι} {call : RefCall} {l : Locking ι} (hi : s.point i = .idle)
      (hlock : LockStep pid s.locking (.lock i) l) :
      CountStep pid s (.call i call) ⟨l, s.count, s.move i (.locking call), s.returned⟩
  | turn {i : ι} {call : RefCall} {l : Locking ι} (hi : s.point i = .locking call)
      (hlock : LockStep pid s.locking (.turn i) l) :
      CountStep pid s (.turn i)
        ⟨l, s.count, s.move i (if l.holds i then .locked call else .locking call), s.returned⟩
  | load {i : ι} {call : RefCall} (hi : s.point i = .locked call) :
      CountStep pid s (.load i)
        ⟨s.locking, s.count, s.move i (.loaded call s.count), s.returned⟩
  | store {i : ι} {call : RefCall} {n : ℤ} (hi : s.point i = .loaded call n) :
      CountStep pid s (.store i)
        ⟨s.locking, call.change n, s.move i (.stored call (call.change n)), s.returned⟩
  | unlock {i : ι} {call : RefCall} {x : ℤ} {l : Locking ι} (hi : s.point i = .stored call x)
      (hlock : LockStep pid s.locking (.unlock i) l) :
      CountStep pid s (.unlock i)
        ⟨l, s.count, s.move i .idle, s.returned ++ [(call, x)]⟩

/-! ### The invariant -/

/-- What the calls that have returned leave of the count. -/
def Counting.total (s : Counting ι) : ℤ := refSpec.after (s.returned.map Prod.fst) 0

/-- What a process in a call knows of the count. -/
def RefPoint.Knows (count total : ℤ) : RefPoint → Prop
  | idle => True
  | locking _ => True
  | locked _ => count = total
  | loaded _ n => count = total ∧ n = total
  | stored call x => count = call.change total ∧ x = count

/-- The processes in calls have the lock, and know the count. -/
structure Counting.Inv (pid : ι → ℤ) (s : Counting ι) : Prop where
  locking : s.locking.Inv pid
  holds : ∀ i, s.locking.holds i = (s.point i).inside
  knows : ∀ i, (s.point i).Knows s.count s.total
  free : (∀ i, (s.point i).inside = false) → s.count = s.total
  returned : s.returned.map Prod.snd = refSpec.results (s.returned.map Prod.fst) 0

/-- A process that has nothing of the lock knows nothing. -/
theorem RefPoint.knows_of_outside {point : RefPoint} (h : point.inside = false)
    (count total : ℤ) :
  point.Knows count total
  := by
  cases point with
  | idle => trivial
  | locking call => trivial
  | locked call => cases h
  | loaded call n => cases h
  | stored call x => cases h

omit [DecidableEq ι] in
/-- At most one process is between `syslock` and `sysunlock`. -/
theorem Counting.Inv.outside (h : s.Inv pid) (hi : (s.point i).inside = true) {j : ι}
    (hj : j ≠ i) :
  (s.point j).inside = false
  := by
  rw [← h.holds] at hi ⊢
  rcases h.locking with ⟨-, hfree⟩ | ⟨k, -, hheld⟩
  · exact hfree j
  · rw [← Bool.not_eq_true, hheld]
    rintro rfl
    exact hj ((hheld i).mp hi).symm

@[simp]
theorem Counting.move_self (s : Counting ι) (i : ι) (point : RefPoint) :
  s.move i point i = point
  := Function.update_self _ _ _

theorem Counting.move_of_ne {j : ι} (h : j ≠ i) (s : Counting ι) (point : RefPoint) :
  s.move i point j = s.point j
  := Function.update_of_ne h _ _

/-- A process goes on, and the others know what they knew. -/
theorem Counting.Inv.move (h : s.Inv pid) {l : Locking ι} {count : ℤ} {point : RefPoint}
    (hl : l.Inv pid) (hholds : l.holds = Function.update s.locking.holds i point.inside)
    (hknows : point.Knows count s.total)
    (hcount : count = s.count ∨ (s.point i).inside = true)
    (hfree : point.inside = false → count = s.count ∧ (s.point i).inside = false) :
  Counting.Inv pid ⟨l, count, s.move i point, s.returned⟩
  := by
  refine ⟨hl, ?_, ?_, ?_, h.returned⟩
  · intro j
    dsimp only
    rw [hholds]
    by_cases hj : j = i
    · subst hj
      rw [Function.update_self, Counting.move_self]
    · rw [Function.update_of_ne hj, Counting.move_of_ne hj, h.holds]
  · intro j
    dsimp only
    by_cases hj : j = i
    · subst hj
      rw [Counting.move_self]
      exact hknows
    · rw [Counting.move_of_ne hj]
      rcases hcount with rfl | hi
      · exact h.knows j
      · exact RefPoint.knows_of_outside (h.outside hi hj) _ _
  · intro hall
    have hi := hall i
    dsimp only at hi
    rw [Counting.move_self] at hi
    obtain ⟨rfl, hout⟩ := hfree hi
    apply h.free
    intro j
    by_cases hj : j = i
    · subst hj
      exact hout
    · have hj' := hall j
      dsimp only at hj'
      rwa [Counting.move_of_ne hj] at hj'

/-- A turn of the loop of `syslock` gets the lock if no process holds it. -/
theorem turn_cases {l l' : Locking ι} (h : LockStep pid l (.turn i) l') (hl : l.Inv pid) :
  ((∀ j, l.holds j = false) ∧ l'.holds = Function.update l.holds i true) ∨ l'.holds = l.holds
  := by
  cases h with
  | @turn _ dead b lock hw hrun =>
      rw [syslockTurn_eq] at hrun
      rcases hl with ⟨hlock, hholds⟩ | ⟨j, hlock, hholds⟩
      · rw [hlock] at hrun
        cases hrun
        exact .inl ⟨hholds, rfl⟩
      · rw [hlock] at hrun
        cases hrun
        exact .inr rfl

/-- Every step keeps the invariant. -/
theorem CountStep.inv {e : CountEvent ι} (h : CountStep pid s e s') (hpid : ∀ i, pid i ≠ -1)
    (hs : s.Inv pid) :
  s'.Inv pid
  := by
  cases h with
  | @call i call l hi hlock =>
      have hl := hlock.inv hpid hs.locking
      have hheld := hs.holds i
      rw [hi] at hheld
      have hholds : l.holds = Function.update s.locking.holds i false := by
        cases hlock with
        | lock hw hrun => exact (Function.update_eq_self_iff.mpr hheld.symm).symm
      exact hs.move hl hholds trivial (.inl rfl) fun _ => ⟨rfl, by rw [hi]; rfl⟩
  | @turn i call l hi hlock =>
      have hl := hlock.inv hpid hs.locking
      have hheld := hs.holds i
      rw [hi] at hheld
      rcases turn_cases hlock hs.locking with ⟨hfree, hholds⟩ | hholds
      · have htotal : s.count = s.total := hs.free fun j => by rw [← hs.holds, hfree]
        have hgot : l.holds i = true := by rw [hholds, Function.update_self]
        rw [hgot, if_pos rfl]
        exact hs.move hl hholds htotal (.inl rfl) nofun
      · have hnot : l.holds i = false := by rw [hholds, hheld]; rfl
        rw [hnot, if_neg Bool.false_ne_true]
        rw [← Function.update_eq_self i s.locking.holds, hheld] at hholds
        exact hs.move hl hholds trivial (.inl rfl) fun _ => ⟨rfl, by rw [hi]; rfl⟩
  | @load i call hi =>
      have hheld := hs.holds i
      have hknows := hs.knows i
      rw [hi] at hheld hknows
      have hholds : s.locking.holds = Function.update s.locking.holds i true :=
        (Function.update_eq_self_iff.mpr hheld.symm).symm
      exact hs.move hs.locking hholds ⟨hknows, hknows⟩ (.inl rfl) nofun
  | @store i call n hi =>
      have hheld := hs.holds i
      have hknows := hs.knows i
      rw [hi] at hheld hknows
      have hholds : s.locking.holds = Function.update s.locking.holds i true :=
        (Function.update_eq_self_iff.mpr hheld.symm).symm
      refine hs.move hs.locking hholds ⟨?_, rfl⟩ (.inr (by rw [hi]; rfl)) nofun
      rw [hknows.2]
  | @unlock i call x l hi hlock =>
      have hl := hlock.inv hpid hs.locking
      have hknows := hs.knows i
      have hinside : (s.point i).inside = true := by
        rw [hi]
        rfl
      rw [hi] at hknows
      have hholds : l.holds = Function.update s.locking.holds i false := by
        cases hlock with
        | unlock => rfl
      have htotal : Counting.total ⟨l, s.count, s.move i .idle, s.returned ++ [(call, x)]⟩
          = s.count := by
        rw [Counting.total, List.map_append, List.map_singleton, Spec.after_concat]
        exact hknows.1.symm
      refine ⟨hl, ?_, ?_, fun _ => htotal.symm, ?_⟩
      · intro j
        dsimp only
        rw [hholds]
        by_cases hj : j = i
        · subst hj
          rw [Function.update_self, Counting.move_self]
          rfl
        · rw [Function.update_of_ne hj, Counting.move_of_ne hj, hs.holds]
      · intro j
        dsimp only
        by_cases hj : j = i
        · subst hj
          rw [Counting.move_self]
          trivial
        · rw [Counting.move_of_ne hj]
          exact RefPoint.knows_of_outside (hs.outside hinside hj) _ _
      · rw [List.map_append, List.map_append, List.map_singleton, List.map_singleton,
          Spec.results_concat, hs.returned, hknows.2.trans hknows.1]
        rfl

/-- In every state of a run the invariant holds. -/
theorem counting_inv (hpid : ∀ i, pid i ≠ -1)
    (h : Run.ReachAny (CountStep pid) (Counting.init ι) s) :
  s.Inv pid
  := by
  have hinit : (Counting.init ι).Inv pid :=
    ⟨.free rfl fun _ => rfl, fun _ => rfl, fun _ => trivial, fun _ => rfl, rfl⟩
  refine h.invariant hinit ?_
  intro t e t' ht _ hs
  exact hs.inv hpid ht

/-- Increments one after another return larger and larger numbers. -/
theorem pairwise_results {l : List RefCall} (hl : ∀ call ∈ l, call = .inc) (n : ℤ) :
  (refSpec.results l n).Pairwise (· < ·) ∧ ∀ x ∈ refSpec.results l n, n < x
  := by
  induction l generalizing n with
  | nil => exact ⟨.nil, nofun⟩
  | cons call l ih =>
      obtain rfl := hl call List.mem_cons_self
      obtain ⟨hpairwise, hlt⟩ := ih (fun c hc => hl c (List.mem_cons_of_mem _ hc)) (n + 1)
      refine ⟨List.pairwise_cons.mpr ⟨hlt, hpairwise⟩, ?_⟩
      intro x hx
      rcases List.mem_cons.mp hx with rfl | hx
      · exact Int.lt_succ n
      · exact Int.lt_trans (Int.lt_succ n) (hlt x hx)

/--
However processes with a pid call the functions on a count that was set up, the calls that have
returned, in the order in which they did, returned what they return one after another; when no
process has the lock, the count is what they leave.  If all of them were increments, no two returned
the same.
-/
theorem refs_sequential (hpid : ∀ i, pid i ≠ -1)
    (h : Run.ReachAny (CountStep pid) (Counting.init ι) s) :
  s.returned.map Prod.snd = refSpec.results (s.returned.map Prod.fst) 0 ∧
    ((∀ i, (s.point i).inside = false) →
      s.count = refSpec.after (s.returned.map Prod.fst) 0) ∧
    ((∀ r ∈ s.returned, r.1 = .inc) → (s.returned.map Prod.snd).Pairwise (· < ·))
  := by
  have hs := counting_inv hpid h
  refine ⟨hs.returned, hs.free, ?_⟩
  intro hinc
  rw [hs.returned]
  refine (pairwise_results ?_ 0).1
  intro call hcall
  obtain ⟨r, hr, rfl⟩ := List.mem_map.mp hcall
  exact hinc r hr

end

/-- A process loads the count, another one waits for the lock, and the first one returns. -/
theorem refs_sequential_two :
  ∃ s : Counting Bool, s.point false = .locking .inc ∧ s.returned = [(.inc, 1)] ∧
    s.returned.map Prod.snd = refSpec.results (s.returned.map Prod.fst) 0
  := by
  have hpid : ∀ i : Bool, (if i then 1 else 2 : ℤ) ≠ -1 := by decide
  have h₀ : Run.ReachAny (CountStep fun i : Bool => if i then 1 else 2) (Counting.init Bool) _ :=
    .refl _
  have h₁ := h₀.snoc (e := .call true .inc) (.call rfl
    (@LockStep.lock _ _ _ _ true false true _ rfl rfl))
  have h₂ := h₁.snoc (.turn (i := true) rfl (@LockStep.turn _ _ _ _ true false true _ rfl rfl))
  have h₃ := h₂.snoc (.load (i := true) rfl)
  have h₄ := h₃.snoc (e := .call false .inc) (.call rfl
    (@LockStep.lock _ _ _ _ false false true _ rfl rfl))
  have h₅ := h₄.snoc (.turn (i := false) rfl (@LockStep.turn _ _ _ _ false false false _ rfl rfl))
  have h₆ := h₅.snoc (.store (i := true) rfl)
  have h₇ := h₆.snoc (.unlock (i := true) rfl (@LockStep.unlock _ _ _ _ true false _ rfl rfl rfl))
  have hsequential := refs_sequential hpid h₇
  exact ⟨_, rfl, rfl, hsequential.1⟩

end Process
