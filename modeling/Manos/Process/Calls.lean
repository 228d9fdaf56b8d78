import Manos.Process.Table

/-!
# Runs of `newProc` and `recycleProc`

Calls of `newProc` and `recycleProc` after `main` has set up the lists.  The memory after the
process table is arbitrary, and the table has the indices below `maxProc`.
-/

namespace Process

open Exec

variable {k k' : Kernel} {p q : ProcId} {f u v : List ProcId} {n : Nat} {b : Bool}
  {memory : Int → Slot}

/-- The process structure `p` is found on the free list. -/
def Kernel.Free (p : ProcId) (k : Kernel) : Prop := .proc p ∈ k.freelist.members maxProc .head

variable (memory) in
/-- The kernel `k` is reached by `n` calls of `newProc` and by calls of `recycleProc` for
processes that are not free, and no assertion of `newProc` failed if `b` holds. -/
inductive Calls : Nat → Bool → Kernel → Prop where
  | setup {k : Kernel} (h : setup (powerOn memory) = .done () k) : Calls 0 true k
  | new {n : Nat} {k k' : Kernel} {p : ProcId} (hc : Calls n true k)
      (h : newProc k = .done p k') : Calls (n + 1) true k'
  | fail {n : Nat} {k k' : Kernel} {msg : String} (hc : Calls n true k)
      (h : newProc k = .stop (.assertion msg) k') : Calls (n + 1) false k'
  | recycle {n : Nat} {k k' : Kernel} {p : ProcId} (hc : Calls n true k) (hp : ¬ k.Free p)
      (h : recycleProc p k = .done () k') : Calls n true k'

/-- The process table is consistent with the processes. -/
structure Consistent (k : Kernel) : Prop where
  distinct : ∀ p q, ¬ k.Free p → ¬ k.Free q → (k.procs p).pid = (k.procs q).pid → p = q
  table : ∀ p, ¬ k.Free p → k.procTable (k.procs p).pid = .proc p
  null : ∀ i : Int, 0 ≤ i → i < maxProc → (∀ p, ¬ k.Free p → (k.procs p).pid ≠ i) →
    k.procTable i = .null
  inside : ∀ p, (k.procs p).pid ≠ 0 → 0 ≤ (k.procs p).pid ∧ (k.procs p).pid < maxProc

/-- After `n` calls of `newProc`, the free list holds the structures `u` that were never used,
and after them the structures `v`. -/
structure CallsInv (n : Nat) (k : Kernel) (u v : List ProcId) : Prop where
  rp : k.rp = .null
  ring : k.freelist.Ring .head ((u ++ v).map .proc)
  table : Table k (u ++ v)
  new : ∀ p ∈ u, (k.procs p).pid = 0
  old : ∀ p ∈ v, (k.procs p).pid ≠ 0
  count : (u.length : Int) + k.nextPid = maxProc
  calls : k.nextPid = min n maxProc

/-- The processes of a free list are found on it. -/
theorem free_iff (h : k.freelist.Ring .head (f.map .proc)) :
  k.Free p ↔ p ∈ f
  := by
  have hn : f.Nodup := (List.nodup_cons.mp h.nodup).2.of_map
  have hlen : (f.map QNode.proc).length ≤ maxProc := by
    have hcard := hn.length_le_card
    rw [Fintype.card_fin] at hcard
    rw [List.length_map]
    exact hcard
  rw [Kernel.Free, h.members hlen, List.mem_map]
  constructor
  · rintro ⟨q, hq, ⟨⟩⟩
    exact hq
  · intro hp
    exact ⟨p, hp, rfl⟩

theorem ring_tail (h : k.freelist.Ring .head ((p :: f).map .proc)) :
  p ∉ f ∧ ((k.freelist.unlink .null (.proc p)).init (.proc p)).Ring .head (f.map .proc)
  := by
  have hp : p ∉ f := by
    have hn := (List.nodup_cons.mp h.nodup).2
    rw [List.map_cons, List.nodup_cons] at hn
    intro hmem
    exact hn.1 (List.mem_map_of_mem hmem)
  have hring : k.freelist.Ring .head ([] ++ .proc p :: f.map .proc) := h
  exact ⟨hp, ring_init (hring.unlink .null) hp⟩

theorem callsInv_setup (h : setup (powerOn memory) = .done () k) :
  CallsInv 0 k (List.finRange maxProc).reverse []
  := by
  obtain ⟨freelist, hsetup, hring⟩ := setup_done memory
  rw [hsetup] at h
  cases h
  refine ⟨rfl, ?_, ?_, fun _ _ => rfl, nofun, ?_, rfl⟩
  · rw [List.append_nil]
    exact hring
  · rw [List.append_nil]
    exact table_listsSet freelist memory
  · rw [List.length_reverse, List.length_finRange]
    rfl

/-- What is known of a free list whose first structure is `p`. -/
theorem CallsInv.first (h : CallsInv n k u v) (hp : k.freelist.next .head = .proc p) :
  (∃ u', u = p :: u' ∧ (k.procs p).pid = 0) ∨
    (u = [] ∧ (k.procs p).pid ≠ 0 ∧ ∃ v', v = p :: v')
  := by
  obtain ⟨f', hf⟩ := ring_first h.ring hp
  cases u with
  | cons a u =>
      left
      rw [List.cons_append] at hf
      cases hf
      exact ⟨u, rfl, h.new p List.mem_cons_self⟩
  | nil =>
      right
      rw [List.nil_append] at hf
      subst hf
      exact ⟨rfl, h.old p List.mem_cons_self, f', rfl⟩

theorem CallsInv.taken (h : CallsInv n k u v) (hp : k.freelist.next .head = .proc p) :
  ∃ u' v', CallsInv (n + 1) (k.taken p) u' v'
  := by
  have hrp : k.rp ≠ .bad := by
    rw [h.rp]
    rintro ⟨⟩
  have hlive : ∀ r, k.rp = .proc r → r ∉ u ++ v := by
    intro r hr
    rw [h.rp] at hr
    cases hr
  have hcount := h.count
  have hcalls := h.calls
  rcases h.first hp with ⟨u', rfl, hz⟩ | ⟨rfl, hne, v', rfl⟩
  · have hring := h.ring
    have htable := h.table
    rw [List.cons_append] at hring htable hlive
    obtain ⟨hpf, hring'⟩ := ring_tail hring
    have hnext : (k.taken p).nextPid = k.nextPid + 1 := if_pos hz
    refine ⟨u', v, h.rp, hring', htable.taken hpf hrp hlive, ?_, ?_, ?_, ?_⟩
    · intro q hq
      have hqp : q ≠ p := by
        rintro rfl
        exact hpf (List.mem_append_left _ hq)
      rw [Kernel.taken_of_ne hqp]
      exact h.new q (List.mem_cons_of_mem _ hq)
    · intro q hq
      have hqp : q ≠ p := by
        rintro rfl
        exact hpf (List.mem_append_right _ hq)
      rw [Kernel.taken_of_ne hqp]
      exact h.old q hq
    · rw [List.length_cons] at hcount
      rw [hnext]
      push_cast at hcount
      omega
    · rw [List.length_cons] at hcount
      rw [hnext]
      push_cast at hcount ⊢
      omega
  · have hring := h.ring
    have htable := h.table
    rw [List.nil_append] at hring htable hlive
    obtain ⟨hpf, hring'⟩ := ring_tail hring
    have hnext : (k.taken p).nextPid = k.nextPid := if_neg hne
    refine ⟨[], v', h.rp, hring', htable.taken hpf hrp hlive, nofun, ?_, ?_, ?_⟩
    · intro q hq
      have hqp : q ≠ p := by
        rintro rfl
        exact hpf hq
      rw [Kernel.taken_of_ne hqp]
      exact h.old q (List.mem_cons_of_mem _ hq)
    · rw [hnext]
      exact hcount
    · rw [hnext]
      rw [List.length_nil] at hcount
      push_cast at hcount ⊢
      omega

theorem CallsInv.recycled {groups : Nat → Option ProcGroup} (h : CallsInv n k u v)
    (hp : p ∉ u ++ v) :
  CallsInv n (k.recycled p groups) u (v ++ [p])
  := by
  refine ⟨h.rp, ?_, ?_, ?_, ?_, h.count, h.calls⟩
  · rw [← List.append_assoc]
    exact ring_addBefore (ring_init h.ring hp) hp
  · rw [← List.append_assoc]
    exact h.table.recycled groups hp
  · intro q hq
    rw [Kernel.recycled_pid]
    exact h.new q hq
  · intro q hq
    rw [Kernel.recycled_pid]
    rw [List.mem_append, List.mem_singleton] at hq
    rcases hq with hq | rfl
    · exact h.old q hq
    · exact h.table.used q hp

/-- The slot of a new process is free as long as its pid is in the table. -/
theorem CallsInv.slot (h : CallsInv n k u v) (hp : k.freelist.next .head = .proc p)
    (hn : n < 126 ∨ u = []) :
  k.procTable (k.pidFor p) = .null
  := by
  have hcalls := h.calls
  rcases h.first hp with ⟨u', rfl, hz⟩ | ⟨rfl, hne, v', rfl⟩
  · have hlt : n < 126 := by
      rcases hn with hn | hn
      · exact hn
      · cases hn
    have hnext := h.table.nextPid
    have hmax : maxProc = 127 := rfl
    rw [Kernel.pidFor, if_pos hz]
    apply h.table.unused
    · omega
    · omega
    · intro q _ hq
      have := (h.table.pid q).2
      omega
  · rw [Kernel.pidFor, if_neg hne]
    exact h.table.free p List.mem_cons_self hne

/-- What is known after any run of calls. -/
theorem Calls.inv (h : Calls memory n b k) :
  (b = true → ∃ u v, CallsInv n k u v) ∧ (b = false → 126 < n)
  := by
  induction h with
  | setup h =>
      refine ⟨fun _ => ⟨_, _, callsInv_setup h⟩, nofun⟩
  | new hc h ih =>
      obtain ⟨u, v, hinv⟩ := ih.1 rfl
      obtain ⟨hf, -, -, rfl⟩ := newProc_done h
      exact ⟨fun _ => hinv.taken hf, nofun⟩
  | @fail n k k' msg hc h ih =>
      refine ⟨nofun, fun _ => ?_⟩
      obtain ⟨u, v, hinv⟩ := ih.1 rfl
      by_contra hn
      have hu : ∃ p, k.freelist.next .head = .proc p := by
        rw [hinv.ring.neighbours_head.1]
        cases u with
        | cons a u => exact ⟨a, rfl⟩
        | nil =>
            have hcount := hinv.count
            have hcalls := hinv.calls
            have hmax : maxProc = 127 := rfl
            rw [List.length_nil] at hcount
            push_cast at hcount
            omega
      obtain ⟨p, hp⟩ := hu
      have hpid := (hinv.table.pidFor p).1
      rw [newProc_apply hp (by omega), if_pos (hinv.slot hp (.inl (by omega)))] at h
      cases h
  | recycle hc hp h ih =>
      obtain ⟨u, v, hinv⟩ := ih.1 rfl
      obtain ⟨groups, rfl⟩ := recycleProc_done h
      rw [free_iff hinv.ring] at hp
      exact ⟨fun _ => ⟨u, _, hinv.recycled hp⟩, nofun⟩

/-- The table is consistent while all pids are inside it. -/
theorem CallsInv.consistent (h : CallsInv n k u v) (hn : n ≤ 126) :
  Consistent k
  := by
  have hcalls := h.calls
  have hmax : maxProc = 127 := rfl
  constructor
  · intro p q hp _ heq
    rw [free_iff h.ring] at hp
    exact h.table.inj p q heq (h.table.used p hp)
  · intro p hp
    rw [free_iff h.ring] at hp
    exact h.table.live p hp
  · intro i h₀ h₁ hi
    by_cases hex : ∃ p, (k.procs p).pid ≠ 0 ∧ (k.procs p).pid = i
    · obtain ⟨p, hne, rfl⟩ := hex
      have hfree : p ∈ u ++ v := by
        by_contra hp
        rw [← free_iff h.ring] at hp
        exact hi p hp rfl
      exact h.table.free p hfree hne
    · exact h.table.unused i h₀ h₁ fun p hne heq => hex ⟨p, hne, heq⟩
  · intro p _
    have := h.table.pid p
    omega

/-- The table is no longer consistent when the last structure has a pid. -/
theorem CallsInv.not_consistent (h : CallsInv n k u v) (hn : 126 < n) :
  ¬ Consistent k
  := by
  intro hc
  have hcalls := h.calls
  have hmax : maxProc = 127 := rfl
  obtain ⟨p, hp⟩ := h.table.onto 127 (by omega) (by omega)
  have hin := (hc.inside p (by omega)).2
  omega

/-- After any run of calls no assertion of `newProc` has failed and the table is consistent,
if and only if `newProc` was called at most 126 times. -/
theorem consistent_iff (h : Calls memory n b k) :
  (b = true ∧ Consistent k) ↔ n ≤ 126
  := by
  obtain ⟨hinv, hfail⟩ := h.inv
  constructor
  · rintro ⟨hb, hc⟩
    obtain ⟨u, v, hi⟩ := hinv hb
    by_contra hn
    exact hi.not_consistent (by omega) hc
  · intro hn
    have hb : b = true := by
      cases b with
      | true => rfl
      | false =>
          have := hfail rfl
          omega
    obtain ⟨u, v, hi⟩ := hinv hb
    exact ⟨hb, hi.consistent hn⟩

/-- A structure that was never used is the first of the free list, as long as there is one. -/
theorem CallsInv.first_new (h : CallsInv n k u v) (hn : n ≤ 126) :
  ∃ p, k.freelist.next .head = .proc p ∧ k.pidFor p = n + 1
  := by
  have hmax : maxProc = 127 := rfl
  have hcount := h.count
  have hcalls := h.calls
  cases u with
  | nil =>
      rw [List.length_nil] at hcount
      push_cast at hcount
      omega
  | cons p u =>
      refine ⟨p, h.ring.neighbours_head.1, ?_⟩
      rw [Kernel.pidFor, if_pos (h.new p List.mem_cons_self)]
      omega

/-- All structures but one can be made processes, one after another. -/
theorem calls_new (memory : Int → Slot) (hn : n ≤ 126) :
  ∃ k u v, Calls memory n true k ∧ CallsInv n k u v ∧ k.procTable 127 = memory 127
  := by
  induction n with
  | zero =>
      obtain ⟨freelist, hsetup, -⟩ := setup_done memory
      exact ⟨_, _, _, .setup hsetup, callsInv_setup hsetup, rfl⟩
  | succ n ih =>
      obtain ⟨k, u, v, hc, hinv, hmem⟩ := ih (by omega)
      obtain ⟨p, hp, hpid⟩ := hinv.first_new (by omega)
      have hnew : newProc k = .done p (k.taken p) := by
        rw [newProc_apply hp (by omega), if_pos (hinv.slot hp (.inl (by omega)))]
      obtain ⟨u', v', hinv'⟩ := hinv.taken hp
      refine ⟨_, u', v', .new hc hnew, hinv', ?_⟩
      rw [← hmem]
      apply Function.update_of_ne
      omega

/-- With the memory after the table zero, the process that is made at call 127 gets the first
index after the table as its pid. -/
theorem inconsistent_127 :
  ∃ k, Calls (fun _ => .null) 127 true k ∧ ¬ Consistent k
  := by
  obtain ⟨k, u, v, hc, hinv, hmem⟩ := calls_new (n := 126) (fun _ => .null) (le_refl 126)
  obtain ⟨p, hp, hpid⟩ := hinv.first_new (le_refl 126)
  have hnew : newProc k = .done p (k.taken p) := by
    rw [newProc_apply hp (by omega), if_pos]
    rw [hpid]
    exact hmem
  obtain ⟨u', v', hinv'⟩ := hinv.taken hp
  exact ⟨_, .new hc hnew, hinv'.not_consistent (by omega)⟩

/-- The table is consistent after all the processes for which there is a pid. -/
theorem consistent_iff_126 :
  ∃ k, Calls (fun _ => .null) 126 true k ∧ Consistent k
  := by
  obtain ⟨k, u, v, hc, -, -⟩ := calls_new (fun _ => .null) (le_refl 126)
  exact ⟨k, hc, ((consistent_iff hc).mpr (le_refl 126)).2⟩

end Process
