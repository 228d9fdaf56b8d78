import Mathlib.Data.List.GetD
import Manos.Torgo.Parser

/-!
# The input chain

`Pending p bs` says that the links of the parser `p` hold the bytes `bs` that were added and
not read yet.  The bookkeeping of the fields `input`, `inputChain` and `last` is in its two
cases; `Fed p bs` has the parser to which nothing was added yet as a third one.  Every operation on
the input has one lemma, which says what it does to the bytes; no other proof looks at the links.
-/

namespace Torgo

open Exec

variable {p q : Parser} {bs : List Byte} {b : Byte} {a z : Nat} {s : List Byte}
  {ss : List (List Byte)} {chains chains' : Nat → Option InputChain}

/-- The links from `a` to the last one, `z`, hold the strings `ss`; later links were
allocated later. -/
inductive Linked (chains : Nat → Option InputChain) (z : Nat) : Nat → List (List Byte) → Prop
  | last {s : List Byte} (h : chains z = some ⟨s, none⟩) : Linked chains z z [s]
  | link {a b : Nat} {s : List Byte} {ss : List (List Byte)} (h : chains a = some ⟨s, some b⟩)
      (hab : a < b) (hl : Linked chains z b ss) : Linked chains z a (s :: ss)

theorem Linked.le (h : Linked chains z a ss) :
  a ≤ z
  := by
  induction h with
  | last => exact Nat.le_refl _
  | link _ hab _ ih => exact Nat.le_trans (Nat.le_of_lt hab) ih

/-- The first link of a chain. -/
theorem Linked.head (h : Linked chains z a (s :: ss)) :
  ∃ next, chains a = some ⟨s, next⟩
  := by
  cases h with
  | last h => exact ⟨_, h⟩
  | link h => exact ⟨_, h⟩

/-- Links before the chain and after it may change. -/
theorem Linked.congr (h : Linked chains z a ss) (hc : ∀ x, a ≤ x → x ≤ z → chains' x = chains x) :
  Linked chains' z a ss
  := by
  induction h with
  | last h => exact .last ((hc _ (Nat.le_refl _) (Nat.le_refl _)).trans h)
  | link h hab hl ih =>
      refine .link ((hc _ (Nat.le_refl _) (Nat.le_trans (Nat.le_of_lt hab) hl.le)).trans h) hab ?_
      exact ih fun x hx hz => hc x (Nat.le_trans (Nat.le_of_lt hab) hx) hz

/-- A link is added after the last one. -/
theorem Linked.append (h : Linked chains z a ss) {new : Nat} (hz : z < new) :
  ∃ c : InputChain, chains z = some c ∧
    Linked (Function.update (Function.update chains new (some ⟨s, none⟩)) z
      (some { c with next := some new })) new a (ss ++ [s])
  := by
  induction h with
  | @last s' h =>
      refine ⟨_, h, .link (Function.update_self _ _ _) hz (.last ?_)⟩
      rw [Function.update_of_ne (Nat.ne_of_gt hz), Function.update_self]
  | @link a b s' ss h hab hl ih =>
      obtain ⟨c, hc, hnew⟩ := ih
      refine ⟨c, hc, .link ?_ hab hnew⟩
      have haz : a < z := Nat.lt_of_lt_of_le hab hl.le
      rw [Function.update_of_ne (Nat.ne_of_lt haz),
        Function.update_of_ne (Nat.ne_of_lt (Nat.lt_trans haz hz))]
      exact h

/-- The bytes `bs` were added to the input of the parser `p` and not read. -/
inductive Pending (p : Parser) : List Byte → Prop
  /-- all was read; the last link is still there -/
  | drained {a : Nat} {s : List Byte} (ha : p.inputChain = some a)
      (hi : p.input = some (a, s.length)) (hz : p.last = none)
      (h : p.chains a = some ⟨s, none⟩) : Pending p []
  /-- the link at the front is read at the offset `i` -/
  | unread {a i z : Nat} {s : List Byte} {ss : List (List Byte)} (ha : p.inputChain = some a)
      (hi : p.input = some (a, i)) (hz : p.last = some z) (h : Linked p.chains z a (s :: ss))
      (his : i < s.length) (hss : ∀ s' ∈ ss, s' ≠ []) (hfresh : z < p.fresh) :
      Pending p (s.drop i ++ ss.flatten)

/-- The bytes `bs` are pending, or nothing was added to the input yet. -/
inductive Fed (p : Parser) : List Byte → Prop
  | unused (hi : p.input = none) (hz : p.last = none) : Fed p []
  | pending {bs : List Byte} (h : Pending p bs) : Fed p bs

/-- The bytes that are pending do not depend on what was parsed. -/
theorem Pending.congr (h : Pending p bs) (hc : q.inputChain = p.inputChain)
    (hz : q.last = p.last) (hi : q.input = p.input) (hl : q.chains = p.chains)
    (hf : q.fresh = p.fresh) :
  Pending q bs
  := by
  cases h with
  | drained ha hi' hz' h' =>
      exact .drained (hc.trans ha) (hi.trans hi') (hz.trans hz') (hl ▸ h')
  | unread ha hi' hz' h' his hss hfresh =>
      exact .unread (hc.trans ha) (hi.trans hi') (hz.trans hz') (hl ▸ h') his hss (hf ▸ hfresh)

theorem fed_mkParser :
  Fed mkParser []
  := .unused rfl rfl

/-! ### Reading -/

/-- What the parser has of the parsed text. -/
def Parser.SameText (p q : Parser) : Prop :=
  q.tokens = p.tokens ∧ q.token = p.token ∧ q.state = p.state

theorem peek_apply {i : Nat} {next : Option Nat} (hi : p.input = some (a, i))
    (h : p.chains a = some ⟨s, next⟩) (his : i ≤ s.length) :
  peek p = .done (s.getD i 0) p
  := by
  rw [peek, bind_done (get_apply p)]
  simp [hi, h, his]

/-- The next byte is seen. -/
theorem Pending.peek (h : Pending p (b :: bs)) :
  Torgo.peek p = .done b p
  := by
  generalize hl : b :: bs = l at h
  cases h with
  | drained => cases hl
  | @unread a i z s ss ha hi hz h his hss hfresh =>
      obtain ⟨next, hnext⟩ := h.head
      rw [peek_apply hi hnext (Nat.le_of_lt his)]
      rw [List.drop_eq_getElem_cons his, List.cons_append] at hl
      rw [List.getD_eq_getElem _ _ his, (List.cons.inj hl).1]

/-- A zero is seen when all was read. -/
theorem Pending.peek_nil (h : Pending p []) :
  Torgo.peek p = .done 0 p
  := by
  generalize hl : ([] : List Byte) = l at h
  cases h with
  | @drained a s ha hi hz h =>
      rw [peek_apply hi h (Nat.le_refl _), List.getD_eq_default _ _ (Nat.le_refl _)]
  | @unread a i z s ss ha hi hz h his hss hfresh =>
      rw [List.drop_eq_getElem_cons his, List.cons_append] at hl
      cases hl

/-- At the end of the string at the front, the parser goes on to the next link. -/
theorem advance_end (n : Nat) (ha : p.inputChain = some a) (hi : p.input = some (a, s.length))
    (hz : p.last = some z) (h : Linked p.chains z a (s :: ss)) (hss : ∀ s' ∈ ss, s' ≠ [])
    (hfresh : z < p.fresh) :
  Returns p (advanceInputParser (n + 1)) fun _ q => Pending q ss.flatten ∧ p.SameText q
  := by
  obtain ⟨next, hnext⟩ := h.head
  refine .step (peek_apply hi hnext (Nat.le_refl _)) ?_
  rw [List.getD_eq_default _ _ (Nat.le_refl _), if_neg (by simp)]
  have hlink : link p.inputChain p = .done (a, ⟨s, next⟩) p := by
    rw [link, bind_done (get_apply p)]
    simp [ha, hnext]
  refine .get (.step hlink ?_)
  cases h with
  | last h' =>
      cases hnext.symm.trans h'
      exact ⟨(), _, rfl, .drained ha hi rfl hnext, rfl, rfl, rfl⟩
  | @link _ b _ ss h' hab hl =>
      cases hnext.symm.trans h'
      cases ss with
      | nil => nomatch hl
      | cons s' ss =>
          obtain ⟨next', hb⟩ := hl.head
          have hlink' : link (some b) p = .done (b, ⟨s', next'⟩) p := by
            rw [link, bind_done (get_apply p)]
            simp [hb]
          refine .step hlink' ⟨(), _, rfl, ?_, rfl, rfl, rfl⟩
          refine .unread (s := s') (i := 0) rfl rfl hz (hl.congr ?_) ?_ ?_ hfresh
          · intro x hx _
            exact Function.update_of_ne (Nat.ne_of_gt (Nat.lt_of_lt_of_le hab hx)) _ _
          · exact List.length_pos_iff.mpr (hss s' List.mem_cons_self)
          · exact fun t ht => hss t (List.mem_cons_of_mem _ ht)

/-- A byte is read. -/
theorem Pending.advance (h : Pending p (b :: bs)) (hb : 0 ∉ b :: bs) :
  Returns p Torgo.advance fun _ q => Pending q bs ∧ p.SameText q
  := by
  have hpeek := h.peek
  generalize hl : b :: bs = l at h
  cases h with
  | drained => cases hl
  | @unread a i z s ss ha hi hz h his hss hfresh =>
      rw [List.drop_eq_getElem_cons his, List.cons_append] at hl
      obtain ⟨hhead, hbs⟩ := List.cons.inj hl
      have hb₀ : b ≠ 0 := fun h₀ => hb (h₀ ▸ List.mem_cons_self)
      refine .step hpeek ?_
      rw [if_pos hb₀]
      refine .modify fun q hq => ?_
      have hqi : q.input = some (a, i + 1) := by
        rw [hq]
        simp [hi]
      have hqa : q.inputChain = some a := hq ▸ ha
      have hqz : q.last = some z := hq ▸ hz
      have hqh : Linked q.chains z a (s :: ss) := hq ▸ h
      have hqf : z < q.fresh := hq ▸ hfresh
      have hsame : p.SameText q := by
        rw [hq]
        exact ⟨rfl, rfl, rfl⟩
      obtain ⟨next, hnext⟩ := hqh.head
      refine .step (peek_apply hqi hnext his) ?_
      -- the second call is needed exactly at the end of the string
      by_cases hend : i + 1 < s.length
      · have hpend : Pending q bs := by
          rw [hbs]
          exact .unread hqa hqi hqz hqh hend hss hqf
        have hmem : s[i + 1] ∈ bs := by
          rw [hbs, List.drop_eq_getElem_cons hend]
          exact List.mem_append_left _ List.mem_cons_self
        have hne : s[i + 1] ≠ 0 := by
          intro h₀
          rw [h₀] at hmem
          exact hb (List.mem_cons_of_mem _ hmem)
        rw [List.getD_eq_getElem _ _ hend, if_neg hne]
        exact .pure ⟨hpend, hsame⟩
      · have hlen : i + 1 = s.length := by omega
        rw [hlen] at hqi hbs ⊢
        rw [List.drop_length, List.nil_append] at hbs
        rw [List.getD_eq_default _ _ (Nat.le_refl _), if_pos rfl, hbs]
        refine (advance_end 0 hqa hqi hqz hqh hss hqf).mono ?_
        rintro - q' ⟨hq', h₁, h₂, h₃⟩
        exact ⟨hq', h₁.trans hsame.1, h₂.trans hsame.2.1, h₃.trans hsame.2.2⟩

/-! ### Adding input -/

/-- The last link is known as long as bytes are pending. -/
theorem Fed.last_eq_none (h : Fed p []) :
  p.last = none
  := by
  generalize hl : ([] : List Byte) = l at h
  rcases h with ⟨-, hz⟩ | ⟨-, -, hz, -⟩ | ⟨-, -, -, -, his, -, -⟩
  · exact hz
  · exact hz
  · rw [List.drop_eq_getElem_cons his, List.cons_append] at hl
    cases hl

/-- A chunk is added when there is no link after which to add it. -/
theorem add_first (hz : p.last = none) (hs : s ≠ []) (h₀ : 0 ∉ s) :
  Returns p (addInputParser s) fun _ q => Pending q s ∧ p.SameText q
  := by
  have hstr : mkString s = s := cstr_of_notMem h₀
  refine .get (.modify fun q hq => ?_)
  rw [hz]
  refine ⟨(), _, rfl, ?_, by rw [hq]; exact ⟨rfl, rfl, rfl⟩⟩
  have hlink : q.chains p.fresh = some ⟨s, none⟩ := by
    rw [hq]
    exact (Function.update_self (β := fun _ => Option InputChain) _ _ _).trans (by rw [hstr])
  rw [← List.drop_zero (l := s), ← List.append_nil (s.drop 0), ← List.flatten_nil]
  refine .unread rfl rfl rfl (.last hlink) (List.length_pos_iff.mpr hs) nofun ?_
  rw [hq]
  exact Nat.lt_succ_self _

/-- A chunk that is not empty is added after the bytes that are pending. -/
theorem Fed.add (h : Fed p bs) (hs : s ≠ []) (h₀ : 0 ∉ s) :
  Returns p (addInputParser s) fun _ q => Pending q (bs ++ s) ∧ p.SameText q
  := by
  rcases h with ⟨hi, hz⟩ | ⟨ha, hi, hz, h⟩ | @⟨a, i, z, s₁, ss, ha, hi, hz, h, his, hss, hfresh⟩
  · exact add_first hz hs h₀
  · exact add_first hz hs h₀
  · have hstr : mkString s = s := cstr_of_notMem h₀
    refine .get (.modify fun q hq => ?_)
    rw [hz]
    obtain ⟨c, hc, hl⟩ := h.append (s := s) hfresh
    have hlink : link (some z) q = .done (z, c) q := by
      rw [link, bind_done (get_apply q), hq]
      simp [Function.update_of_ne (Nat.ne_of_lt hfresh), hc]
    refine .step hlink ⟨(), _, rfl, ?_, by rw [hq]; exact ⟨rfl, rfl, rfl⟩⟩
    rw [List.append_assoc, ← List.flatten_concat]
    refine .unread (by rw [hq]; exact ha) (by rw [hq]; exact hi) rfl ?_ his ?_ ?_
    · rw [hq]
      rwa [hstr]
    · intro s' hs'
      rcases List.mem_append.mp hs' with hs' | hs'
      · exact hss s' hs'
      · rw [List.mem_singleton.mp hs']
        exact hs
    · rw [hq]
      exact Nat.lt_succ_self _

/-- There is unparsed input exactly when bytes are pending. -/
theorem Fed.hasUnparsed (h : Fed p bs) (hb : 0 ∉ bs) :
  hasUnparsedInputParser p = .done (!bs.isEmpty) p
  := by
  rw [hasUnparsedInputParser, bind_done (get_apply p)]
  cases bs with
  | nil =>
      have hz := h.last_eq_none
      cases hi : p.input with
      | none => simp [hz]
      | some x =>
          have hpeek : Torgo.peek p = .done 0 p := by
            cases h with
            | unused hi' => rw [hi] at hi'; cases hi'
            | pending h => exact h.peek_nil
          simp only
          rw [bind_done hpeek, hz]
          rfl
  | cons b bs =>
      have hb₀ : b ≠ 0 := fun h₀ => hb (h₀ ▸ List.mem_cons_self)
      have hpeek : Torgo.peek p = .done b p := by
        cases h with
        | pending h => exact h.peek
      cases hi : p.input with
      | none =>
          rw [Torgo.peek, bind_done (get_apply p), hi] at hpeek
          cases hpeek
      | some x =>
          simp only
          rw [bind_done hpeek, decide_eq_true hb₀]
          rfl

end Torgo
