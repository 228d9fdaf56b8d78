import Manos.Torgo.Constructors

/-!
# The shell without memory

Whether the constructors of the shell fail cleanly when a request for memory is refused: they do
so when it is the first one.
-/

namespace Torgo.Constructors

open Exec Blocks
open Buffers (CStr)

/-- The calls of the constructors; the arguments that are pointers point to blocks. -/
inductive Make where
  | string (cstr : CStr)
  | concat (a b : ℕ)
  | charBuf (size : ℕ)
  | parser
  | input (p : ℕ) (text : CStr)

namespace Make

def run : Make → Exec Mem Ptr
  | string cstr => mkString cstr
  | concat a b => concatString (some a) (some b)
  | charBuf size => mkCharBuf size
  | parser => mkParser
  | input p text => addInputParser (some p) text

/-- The number of the requests for memory. -/
def needs : Make → ℕ
  | string _ => 2
  | concat _ _ => 2
  | charBuf _ => 2
  | parser => 3
  | input _ _ => 3

/-- The arguments are strings and a parser. -/
def Valid : Make → Mem → Prop
  | string _, _ => True
  | concat a b, m => WholeString m a ∧ WholeString m b
  | charBuf _, _ => True
  | parser, _ => True
  | input p _, m => ReadyForInput m p

/-- The bytes that `p` points to are those of the string of the last link of the parser in the block
`a`, and the parser, the link and the string have their fields. -/
def WholeInput (s : Mem) (a : ℕ) (p : Ptr) : Prop :=
  ∃ (q : Parser) (l i size : ℕ) (bytes : List Byte),
    s.blocks a = some (.parser q) ∧ q.IsSet ∧ q.last = some (some l)
      ∧ s.blocks l = some (.link ⟨some (some i), some none⟩)
      ∧ s.blocks i = some (.string ⟨some p, some size⟩)
      ∧ (∃ d, p = some d ∧ s.blocks d = some (.chars bytes)) ∧ size < bytes.length

/-- The result is a pointer to a block, and what was made has its fields. -/
def Whole : Make → Ptr → Mem → Prop
  | string _, p, s => ∃ a, p = some a ∧ WholeString s a
  | concat _ _, p, s => ∃ a, p = some a ∧ WholeString s a
  | charBuf _, p, s => ∃ a, p = some a ∧ WholeCharBuf s a
  | parser, p, s => ∃ a, p = some a ∧ WholeParser s a
  | input a _, p, s => WholeInput s a p

/-- The call returns a whole structure if the requests for memory are granted; and if one is
refused, it returns the null pointer and leaves the blocks as they were. -/
def FailsCleanly (c : Make) (m : Mem) : Prop :=
  Blocks.FailsCleanly c.needs m c.run c.Whole

end Make

variable {m s : Mem} {a b : ℕ} {input : CStr}

/-! ### The requests are granted -/

theorem ReadyForInput.after {r k : ℕ} (h : ReadyForInput m a) (hs : After m s r k) :
  ReadyForInput s a
  := by
  obtain ⟨q, hq, hset, hlast⟩ := h
  refine ⟨q, hs.live hq, hset, ?_⟩
  intro l hl
  obtain ⟨c, hc⟩ := hlast l hl
  exact ⟨c, hs.live hc⟩

theorem addInputParser_whole (hall : ∀ i < 3, m.grants i = true) (hp : ReadyForInput m a) :
  Returns m (addInputParser (some a) input) fun p s => Make.WholeInput s a p
  := by
  have h₀ := hall 0 (by decide)
  have h₁ := hall 1 (by decide)
  rw [addInputParser]
  refine (mkString_whole h₀ h₁ input).bind ?_
  rintro _ s ⟨rfl, hs, hstr, hbytes⟩
  rw [if_neg (Option.some_ne_none _)]
  have h₂ : s.grants 0 = true := by
    rw [hs.grants]
    exact hall 2 (by decide)
  apply (addStringParser_returns h₂ (hp.after hs) hstr).mono
  rintro _ t ⟨rfl, hkeeps, q, l, hq, hset, hlast, hlink⟩
  refine ⟨q, l, _, input.bytes.length, input.bytes ++ [0], hq, hset, hlast, hlink, ?_⟩
  refine ⟨hkeeps _ _ hstr trivial, ⟨_, rfl, hkeeps _ _ hbytes trivial⟩, ?_⟩
  simp

/-! ### A request is refused -/

/-- Where the link is granted and the bytes are not, a string and a link are left. -/
theorem addInputParser_torn (h₀ : m.grants 0 = true) (hp : ReadyForInput m a) :
  ¬ Returns m (addInputParser (some a) input) fun p s => p = none ∧ s.blocks = m.blocks
  := by
  obtain ⟨_, s, hrun, rfl, k, str, hs, hstr⟩ := mkString_some h₀ input
  rw [addInputParser, Returns.step_iff hrun, if_neg (Option.some_ne_none _)]
  cases h₂ : s.grants 0 with
  | false =>
      obtain ⟨t, ht⟩ := addStringParser_stop h₂ hstr (some a)
      rintro ⟨p, t', hrun', -⟩
      rw [ht] at hrun'
      cases hrun'
  | true =>
      apply (addStringParser_returns h₂ (hp.after hs) hstr.1).not_returns
      rintro p t ⟨-, hkeeps, -⟩ ⟨-, hblocks⟩
      have hlive := hkeeps _ _ hstr.1 trivial
      rw [hblocks] at hlive
      exact absurd (Memory.lt_of_live hlive) (lt_irrefl _)

/-- A pointer that is not null is returned, whatever the later requests are. -/
theorem not_returns_none {x : Exec Mem Ptr} {Q : Mem → Prop}
    (h : Returns m x fun p _ => p = some a) :
  ¬ Returns m x fun p s => p = none ∧ Q s
  := by
  apply h.not_returns
  rintro _ s rfl ⟨h, -⟩
  cases h

theorem concatString_some (h₀ : m.grants 0 = true) (ha : WholeString m a) (hb : WholeString m b) :
  Returns m (concatString (some a) (some b)) fun p _ => p = some m.allocated
  := by
  cases h₁ : m.grants 1 with
  | false => exact (concatString_freed h₀ h₁ ha hb).mono fun _ _ h => h.1
  | true => exact (concatString_whole h₀ h₁ ha hb).mono fun _ _ h => h.1

/-! ### The constructors -/

namespace Make

variable (c : Make)

theorem needs_pos :
  0 < c.needs
  := by
  cases c with
  | string _ => exact Nat.succ_pos 1
  | concat _ _ => exact Nat.succ_pos 1
  | charBuf _ => exact Nat.succ_pos 1
  | parser => exact Nat.succ_pos 2
  | input _ _ => exact Nat.succ_pos 2

/-- No constructor does anything if its first request is refused. -/
theorem run_refused (h₀ : m.grants 0 = false) :
  c.run m = .done none m.refuse
  := by
  cases c with
  | string cstr => exact mkString_refused h₀ cstr
  | concat a b => exact concatString_refused h₀ _ _
  | charBuf size => exact mkCharBuf_refused h₀ size
  | parser => exact mkParser_refused h₀
  | input p text => exact addInputParser_refused h₀ _ text

variable {c}

theorem run_whole (hc : c.Valid m) (hall : ∀ i < c.needs, m.grants i = true) :
  Returns m c.run c.Whole
  := by
  cases c with
  | string cstr =>
      apply (mkString_whole (hall 0 Nat.two_pos) (hall 1 Nat.one_lt_two) cstr).mono
      rintro p s ⟨hp, -, hstr, hbytes⟩
      exact ⟨_, hp, _, _, _, hstr, hbytes, by simp⟩
  | concat a b =>
      apply (concatString_whole (hall 0 Nat.two_pos) (hall 1 Nat.one_lt_two) hc.1 hc.2).mono
      rintro p s ⟨hp, -, hwhole⟩
      exact ⟨_, hp, hwhole⟩
  | charBuf size =>
      apply (mkCharBuf_whole (hall 0 Nat.two_pos) (hall 1 Nat.one_lt_two) size).mono
      rintro p s ⟨hp, -, hwhole⟩
      exact ⟨_, hp, hwhole⟩
  | parser =>
      have h : ∀ i < 3, m.grants i = true := hall
      apply (mkParser_whole (h 0 (by decide)) (h 1 (by decide)) (h 2 (by decide))).mono
      rintro p s ⟨hp, -, hwhole⟩
      exact ⟨_, hp, hwhole⟩
  | input p text => exact addInputParser_whole hall hc

/-- No constructor copes with a later request that is refused. -/
theorem run_torn (hc : c.Valid m) (h₀ : m.grants 0 = true) :
  ¬ Returns m c.run fun p s => p = none ∧ s.blocks = m.blocks
  := by
  cases c with
  | string cstr => exact not_returns_none ((mkString_some h₀ cstr).mono fun _ _ h => h.1)
  | concat a b => exact not_returns_none (concatString_some h₀ hc.1 hc.2)
  | charBuf size => exact not_returns_none ((mkCharBuf_some h₀ size).mono fun _ _ h => h.1)
  | parser => exact not_returns_none (mkParser_some h₀)
  | input p text => exact addInputParser_torn h₀ hc

end Make

/-- A constructor fails cleanly exactly if the first request for memory is refused, or none. -/
theorem make_failsCleanly_iff (c : Make) (m : Mem) (hc : c.Valid m) :
  c.FailsCleanly m ↔ m.grants 0 = false ∨ ∀ i < c.needs, m.grants i = true
  := failsCleanly_iff c.needs_pos c.run_refused (Make.run_whole hc) (Make.run_torn hc)

/-- Input for a parser without a buffer, with all requests granted. -/
theorem make_failsCleanly_iff_input :
  (Make.input 0 ⟨[0x61], by decide, by decide⟩).FailsCleanly
    ((Memory.empty fun _ => true).give (.parser (ready (some none))))
  := by
  apply (make_failsCleanly_iff _ _ _).mpr (.inr fun _ _ => rfl)
  refine ⟨_, give_self _ _, ⟨nofun, nofun, nofun, nofun, nofun, nofun⟩, ?_⟩
  rintro l ⟨⟩

/-- A string without its bytes. -/
theorem make_not_failsCleanly :
  ¬ (Make.string ⟨[0x61], by decide, by decide⟩).FailsCleanly (Memory.empty fun i => i ≠ 1)
  := by
  intro h
  obtain ⟨p, s, hrun, -, hrefused⟩ := h
  obtain ⟨rfl, -⟩ := hrefused ⟨1, by decide, by decide⟩
  cases hrun

end Torgo.Constructors
