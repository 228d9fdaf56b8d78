import Mathlib.Data.Set.BooleanAlgebra
import Mathlib.Order.CompletePartialOrder
import Manos.Lib.Objects
import Manos.Process.Trace

/-!
# Signal masks

The functions of `signals.c` with their outputs, and what they are to do: the mask of a process is
a set of signals, which is replaced, enlarged or reduced, and a signal that is posted becomes
pending if it is not in the set.
-/

namespace Process.Masks

open Exec

/-! ### Words as sets -/

variable {w : ℕ} {m n : BitVec w}

/-- The set of the places at which the bits of `m` are set -/
def bits (m : BitVec w) : Set (Fin w) := {i | m[i] = true}

theorem bits_or (m n : BitVec w) :
  bits (m ||| n) = bits m ∪ bits n
  := by
  ext i
  simp [bits]

theorem bits_diff (m n : BitVec w) :
  bits (m &&& ~~~ n) = bits m \ bits n
  := by
  ext i
  simp [bits]

/-! ### The calls -/

variable {k k' : Kernel} {p : ProcId}

/-- A function of `rp`: `*oldMask` is set to its mask unless `oldMask` is `NULL`, and then the
mask is changed by `change`. -/
def ofRunner (oldMask : Bool) (change : ProcId → K Unit) : K (Option (BitVec 32)) := do
  let k ← Exec.get
  match k.rp with
  | .null => Exec.fault (.null "rp")
  | .bad => Exec.fault (.wild "rp")
  | .proc r => do
    let old := if oldMask then some (k.procs r).sigMask else none
    change r
    pure old

/-- `setSignalMask(mask, oldMask)` -/
def setSignalMask (mask : BitVec 32) (oldMask : Bool) : K (Option (BitVec 32)) :=
  ofRunner oldMask fun r => Process.setSignalMask r mask

/-- `setSignalBlock(mask, oldMask)` -/
def setSignalBlock (mask : BitVec 32) (oldMask : Bool) : K (Option (BitVec 32)) :=
  ofRunner oldMask fun r => Process.setSignalBlock r mask

/-- `setSignalUnblock(mask, oldMask)` -/
def setSignalUnblock (mask : BitVec 32) (oldMask : Bool) : K (Option (BitVec 32)) :=
  ofRunner oldMask fun r => Process.setSignalUnblock r mask

/-- The code `x` runs while `rp` is `r`. -/
def during (r : Rp) {α : Type} (x : K α) : K α := do
  Exec.modify fun k => { k with rp := r }
  x

/-- The calls of a process that concern its mask, and those of `syspostsignal` to it, whoever
runs. -/
inductive Call where
  | mask (mask : BitVec 32) (oldMask : Bool)
  | block (mask : BitVec 32) (oldMask : Bool)
  | unblock (mask : BitVec 32) (oldMask : Bool)
  | post (rp : Rp) (signal : BitVec 32)

/-- A call by the process `p` or to it, with what it stores for `oldMask` -/
def Call.run (p : ProcId) : Call → K (Option (BitVec 32))
  | .mask m old => during (.proc p) (setSignalMask m old)
  | .block m old => during (.proc p) (setSignalBlock m old)
  | .unblock m old => during (.proc p) (setSignalUnblock m old)
  | .post r signal => do
    let k ← Exec.get
    during r (syspostsignal (k.procs p).pid signal)
    pure none

/-! ### What they are to do -/

/-- The mask of a process and its pending signals, as sets -/
structure Signals where
  mask : Set (Fin 32)
  pending : Set (Fin 32)

/-- The sets of the process `p` -/
def signals (p : ProcId) (k : Kernel) : Signals :=
  ⟨bits (k.procs p).sigMask, bits (k.procs p).sigPending⟩

/-- The mask is replaced, enlarged by a union, or reduced by a difference, and each time the mask
before is given; a signal that is posted becomes pending unless it is in the mask. -/
def spec : Spec Call Signals (Option (Set (Fin 32))) where
  result
    | .mask _ old, s | .block _ old, s | .unblock _ old, s => if old then some s.mask else none
    | .post _ _, _ => none
  next
    | .mask m _, s => { s with mask := bits m }
    | .block m _, s => { s with mask := s.mask ∪ bits m }
    | .unblock m _, s => { s with mask := s.mask \ bits m }
    | .post _ signal, s => { s with pending := s.pending ∪ (bits signal \ s.mask) }

/-- A call, with the set that it stores for `oldMask` -/
def observe (p : ProcId) (c : Call) : K (Option (Set (Fin 32))) := do
  let old ← c.run p
  pure (old.map bits)

/-- The calls store what the sets say, and lead to them. -/
def FollowsSets (p : ProcId) (k : Kernel) (l : List Call) : Prop :=
  Returns k (Exec.calls (observe p) l) fun rs k' =>
    rs = spec.results l (signals p k) ∧ signals p k' = spec.after l (signals p k)

/-- A call that is not to take a signal out of the mask -/
def Call.KeepsBlocked (c : Call) (s : Signals) : Prop :=
  match c with
  | .unblock m _ => Disjoint s.mask (bits m)
  | _ => True

/-! ### Single calls -/

/-- The process `p` is in the process table. -/
structure Live (p : ProcId) (k : Kernel) : Prop where
  low : 0 ≤ (k.procs p).pid
  high : (k.procs p).pid ≤ maxProc
  slot : k.procTable (k.procs p).pid = .proc p

/-- The kernel with the running process `r` and other signals for `p` -/
def withSignals (r : Rp) (p : ProcId) (mask pending : BitVec 32) (k : Kernel) : Kernel :=
  { k with rp := r }.setProc p fun q => { q with sigMask := mask, sigPending := pending }

theorem signals_withSignals (r : Rp) (p : ProcId) (mask pending : BitVec 32) (k : Kernel) :
  signals p (withSignals r p mask pending k) = ⟨bits mask, bits pending⟩
  := by
  simp [signals, withSignals, Kernel.setProc]

theorem Live.withSignals (h : Live p k) (r : Rp) (mask pending : BitVec 32) :
  Live p (withSignals r p mask pending k)
  := by
  have hpid : ((Masks.withSignals r p mask pending k).procs p).pid = (k.procs p).pid := by
    simp [Masks.withSignals, Kernel.setProc]
  constructor
  · rw [hpid]
    exact h.low
  · rw [hpid]
    exact h.high
  · rw [hpid]
    exact h.slot

/-- The mask after a call, as the code computes it -/
def Call.newMask (c : Call) (mask : BitVec 32) : BitVec 32 :=
  match c with
  | .mask m _ => m
  | .block m _ => mask ||| m
  | .unblock m _ => mask ||| (mask &&& ~~~ m)
  | .post _ _ => mask

/-- What a call does: the output is right in any case. -/
theorem observe_done (h : Live p k) (c : Call) :
  ∃ r pending, bits pending = (spec.next c (signals p k)).pending ∧
    observe p c k = .done (spec.result c (signals p k))
      (withSignals r p (c.newMask (k.procs p).sigMask) pending k)
  := by
  cases c with
  | mask m old => exact ⟨.proc p, (k.procs p).sigPending, rfl, by cases old <;> rfl⟩
  | block m old => exact ⟨.proc p, (k.procs p).sigPending, rfl, by cases old <;> rfl⟩
  | unblock m old => exact ⟨.proc p, (k.procs p).sigPending, rfl, by cases old <;> rfl⟩
  | post r signal =>
      refine ⟨r, (k.procs p).sigPending ||| (signal &&& ~~~ (k.procs p).sigMask), ?_, ?_⟩
      · rw [bits_or, bits_diff]
        rfl
      · have hpid : ¬ ((k.procs p).pid < 0 ∨ (k.procs p).pid > maxProc) := by
          have hlow := h.low
          have hhigh := h.high
          omega
        have hpost : syspostsignal (k.procs p).pid signal { k with rp := r } = .done ()
            (withSignals r p (k.procs p).sigMask
              ((k.procs p).sigPending ||| (signal &&& ~~~ (k.procs p).sigMask)) k) := by
          rw [syspostsignal, if_neg hpid, bind_done (get_apply _), h.slot]
          rfl
        rw [observe, Call.run, bind_apply, bind_done (get_apply k), during,
          bind_done (bind_done (modify_apply _ k) |>.trans hpost)]
        rfl

/-- The mask after a call is the one that is asked for, except when signals are to be taken out
of it. -/
theorem bits_newMask_iff (c : Call) (mask pending : BitVec 32) :
  bits (c.newMask mask) = (spec.next c ⟨bits mask, bits pending⟩).mask ↔
    c.KeepsBlocked ⟨bits mask, bits pending⟩
  := by
  cases c with
  | mask m old => exact iff_of_true rfl trivial
  | block m old => exact iff_of_true (bits_or mask m) trivial
  | post r signal => exact iff_of_true rfl trivial
  | unblock m old =>
      have hsame : bits (mask ||| (mask &&& ~~~ m)) = bits mask := by
        rw [bits_or, bits_diff]
        exact Set.union_eq_left.mpr Set.sdiff_subset
      simp only [Call.newMask, spec, Call.KeepsBlocked, hsame]
      rw [eq_comm, sdiff_eq_left]

/-! ### Sequences of calls -/

/-- After a call that keeps the blocked signals, the calls go on as the sets say; after another one
they do not. -/
theorem followsSets_cons (h : Live p k) (c : Call) :
  ∃ k', Live p k' ∧ (c.KeepsBlocked (signals p k) → signals p k' = spec.next c (signals p k) ∧
      ∀ l, FollowsSets p k (c :: l) ↔ FollowsSets p k' l) ∧
    (FollowsSets p k [c] → c.KeepsBlocked (signals p k))
  := by
  obtain ⟨r, pending, hpending, hdone⟩ := observe_done h c
  have hsignals := signals_withSignals r p (c.newMask (k.procs p).sigMask) pending k
  have hmask := bits_newMask_iff c (k.procs p).sigMask (k.procs p).sigPending
  refine ⟨_, h.withSignals r (c.newMask (k.procs p).sigMask) pending, ?_, ?_⟩
  · intro hc
    have hnext : signals p (withSignals r p (c.newMask (k.procs p).sigMask) pending k) =
        spec.next c (signals p k) := by
      rw [hsignals, hmask.mpr hc, hpending]
      rfl
    refine ⟨hnext, fun l => ?_⟩
    rw [FollowsSets, Exec.calls, Returns.step_iff hdone, Returns.bind_pure_iff, FollowsSets, hnext]
    simp only [Spec.results, List.cons.injEq, true_and]
    rfl
  · intro hfollows
    rw [FollowsSets, Exec.calls, Returns.step_iff hdone, Returns.bind_pure_iff] at hfollows
    have hnext := (hfollows.done (pure_apply _ _)).2
    rw [hsignals] at hnext
    exact hmask.mp (congrArg Signals.mask hnext)

/--
The calls follow the sets at every moment exactly if no call is to unblock a signal that is in the
mask at its moment.
-/
theorem followsSets_iff (h : Live p k) (l : List Call) :
  (∀ l', l' <+: l → FollowsSets p k l') ↔
    ∀ l' m old, l' ++ [.unblock m old] <+: l →
      Disjoint (spec.after l' (signals p k)).mask (bits m)
  := by
  induction l generalizing k with
  | nil =>
      constructor
      · intro _ l' m old hl
        exact absurd (List.prefix_nil.mp hl) (List.append_ne_nil_of_right_ne_nil _ nofun)
      · intro _ l' hl
        rw [List.prefix_nil.mp hl]
        exact .pure ⟨rfl, rfl⟩
  | cons c l ih =>
      obtain ⟨k', hlive, hnext, hkeeps⟩ := followsSets_cons h c
      constructor
      · intro hall l' m old hl
        have hc := hkeeps (hall [c] (List.prefix_cons_inj c |>.mpr (List.nil_prefix)))
        obtain ⟨hsignals, hcons⟩ := hnext hc
        cases l' with
        | nil =>
            obtain ⟨rfl, -⟩ := List.cons_prefix_cons.mp hl
            exact hc
        | cons d l' =>
            obtain ⟨rfl, hl'⟩ := List.cons_prefix_cons.mp hl
            have hrest := (ih hlive).mp fun l'' hl'' =>
              (hcons l'').mp (hall _ (List.cons_prefix_cons.mpr ⟨rfl, hl''⟩))
            have hdisjoint := hrest l' m old hl'
            rw [hsignals] at hdisjoint
            exact hdisjoint
      · intro hall l' hl
        have hc : c.KeepsBlocked (signals p k) := by
          cases c with
          | unblock m old => exact hall [] m old (List.cons_prefix_cons.mpr ⟨rfl, List.nil_prefix⟩)
          | _ => trivial
        obtain ⟨hsignals, hcons⟩ := hnext hc
        cases l' with
        | nil => exact .pure ⟨rfl, rfl⟩
        | cons d l' =>
            obtain ⟨rfl, hl'⟩ := List.cons_prefix_cons.mp hl
            rw [hcons]
            refine (ih hlive).mpr ?_ l' hl'
            intro l'' m old hl''
            rw [hsignals]
            exact hall (d :: l'') m old (List.cons_prefix_cons.mpr ⟨rfl, hl''⟩)

/-- The first process after boot is in the table. -/
theorem live_booted :
  Live 126 booted
  := by
  constructor
  · decide +kernel
  · decide +kernel
  · decide +kernel

theorem followsSets_iff_block :
  (∀ l', l' <+: [.block sigStop true, .post .null sigStop] → FollowsSets 126 booted l') ↔
    ∀ l' m old, l' ++ [.unblock m old] <+: [.block sigStop true, .post .null sigStop] →
      Disjoint (spec.after l' (signals 126 booted)).mask (bits m)
  := followsSets_iff live_booted _

/-- A signal that is blocked and unblocked is still blocked. -/
theorem not_followsSets :
  ¬ ∀ (p : ProcId) (k : Kernel) (l : List Call), Live p k → FollowsSets p k l
  := by
  intro hclaim
  obtain ⟨k', hlive, hnext, -⟩ := followsSets_cons live_booted (.mask sigStop false)
  obtain ⟨hsignals, hcons⟩ := hnext trivial
  obtain ⟨-, -, -, hkeeps⟩ := followsSets_cons hlive (.unblock sigStop false)
  have hfollows := hclaim 126 booted [.mask sigStop false, .unblock sigStop false] live_booted
  have hdisjoint := hkeeps ((hcons _).mp hfollows)
  rw [hsignals] at hdisjoint
  have hmem : (2 : Fin 32) ∈ bits sigStop := by
    show sigStop[(2 : Fin 32)] = true
    decide
  exact Set.disjoint_left.mp hdisjoint hmem hmem

end Process.Masks
