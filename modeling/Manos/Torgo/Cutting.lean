import Manos.Torgo.Scanner

/-!
# The shell parser does not depend on how its input is cut

A call of the parser reads a part of the pending bytes as the scanner does, up to the first
operator.  Calls while there is unparsed input read all of them.  What comes out of it is the
run of the scanner over the text, however it was cut.
-/

namespace Torgo

open Exec

variable {p q : Parser} {s : Scan} {c : Byte} {bs : List Byte}

/-! ### One call -/

/-- The loop ends in a parser in which a command is complete. -/
theorem loop_complete (hp : Pending p bs) (hs : p.state = .complete) (n : Nat) :
  parseLoop (n + 1) p = .done () p
  := by
  have hpeek : ∃ b, peek p = .done b p := by
    cases bs with
    | nil => exact ⟨0, hp.peek_nil⟩
    | cons b bs => exact ⟨b, hp.peek⟩
  obtain ⟨b, hb⟩ := hpeek
  rw [parseLoop, bind_done hb, bind_done (get_apply p), if_neg (by simp [hs])]
  rfl

/-- The loop reads the pending bytes up to the first operator, or all of them. -/
theorem Reads.loop (h : Reads p s) (hp : Pending p bs) (hb : 0 ∉ bs) :
  ∃ q used rest, bs = used ++ rest ∧ (bs ≠ [] → used ≠ []) ∧
    (∃ k, ∀ n, parseLoop (n + k) p = .done () q) ∧ Pending q rest ∧
    Goes q (scanner.run s used) ∧ (rest = [] ∨ (scanner.run s used).2 ≠ []) ∧
    scanner.EmitsLast s used
  := by
  induction bs generalizing p s with
  | nil =>
      refine ⟨p, [], [], rfl, fun h => h, ⟨1, fun n => ?_⟩, hp, .reads h.toHolds h.state, .inl rfl,
        Transducer.emitsLast_nil⟩
      rw [parseLoop, bind_done hp.peek_nil, bind_done (get_apply p), if_neg (by simp)]
      rfl
  | cons c bs ih =>
      obtain ⟨q, ⟨k, hk⟩, hq, hgoes⟩ := h.byte hp hb
      have hb' : 0 ∉ bs := fun h₀ => hb (List.mem_cons_of_mem _ h₀)
      generalize hread : s.read c = out at hgoes
      cases hgoes with
      | @reads s' hh hs =>
          obtain ⟨q', used, rest, hbs, -, ⟨m, hm⟩, hq', hgoes', hrest, hlast⟩ :=
            ih ⟨hh, hs⟩ hq hb'
          have hrun : scanner.run s (c :: used) = scanner.run s' used :=
            Transducer.run_cons_silent hread
          refine ⟨q', c :: used, rest, by rw [hbs, List.cons_append], fun _ => List.cons_ne_nil _ _,
            ⟨m + k, fun n => ?_⟩, hq', ?_, ?_, hlast.cons hread⟩
          · rw [← Nat.add_assoc, hk, hm]
          · rwa [hrun]
          · rwa [hrun]
      | completes hh hs =>
          have hrun : scanner.run s [c] = s.read c := Transducer.run_singleton
          refine ⟨q, [c], bs, rfl, fun _ => List.cons_ne_nil _ _, ⟨1 + k, fun n => ?_⟩, hq, ?_, ?_,
            Transducer.emitsLast_singleton⟩
          · rw [← Nat.add_assoc, hk, loop_complete hq hs]
          · rw [hrun, hread]
            exact .completes hh hs
          · right
            rw [hrun, hread]
            exact List.cons_ne_nil _ _

/-- The tokens are copied in the reverse order. -/
theorem copyTokens_eq (toks : List (List Byte)) (h : ∀ t ∈ toks, 0 ∉ t) (n : Nat)
    (done : List (List Byte)) :
  copyTokens toks (n, done) = (n + toks.length, toks.reverse ++ done)
  := by
  induction toks generalizing n done with
  | nil => rfl
  | cons t toks ih =>
      have ht : mkString t = t := cstr_of_notMem (h t List.mem_cons_self)
      rw [copyTokens, ih fun t' ht' => h t' (List.mem_cons_of_mem _ ht')]
      simp only [ht, List.length_cons, List.reverse_cons, List.append_assoc, List.singleton_append,
        Nat.add_assoc, Nat.add_comm 1]

/-- The commands in a parse result. -/
def ParseResult.commands : ParseResult → List (List (List Byte))
  | .parsedCommand _ tokens => [tokens]
  | .parseIncomplete => []

/-- The parse result for what the scanner emits in one call. -/
def resultOf : List (List (List Byte)) → ParseResult
  | [] => .parseIncomplete
  | cmd :: _ => .parsedCommand cmd.length cmd

/-- A call of the parser, which ends at the byte at which something is emitted. -/
theorem parseInputParser_emits (h : Reads p s) (hp : Pending p bs) (hb : 0 ∉ bs) :
  ∃ q used rest, bs = used ++ rest ∧ (bs ≠ [] → used ≠ []) ∧
    (∃ N, ∀ n, N ≤ n → parseInputParser n p = .done (resultOf (scanner.run s used).2) q) ∧
    Pending q rest ∧ Reads q (scanner.run s used).1 ∧
    ((rest = [] ∨ (scanner.run s used).2 ≠ []) ∧ scanner.EmitsLast s used) ∧
    (resultOf (scanner.run s used).2).commands = (scanner.run s used).2
  := by
  obtain ⟨q, used, rest, hbs, hne, ⟨k, hk⟩, hq, hgoes, hrest, hlast⟩ := h.loop hp hb
  have hloop : ∀ n, k ≤ n → parseLoop n p = .done () q := by
    intro n hn
    rw [← Nat.sub_add_cancel hn]
    exact hk _
  generalize hout : scanner.run s used = out at hgoes hrest ⊢
  cases hgoes with
  | @reads s' hh hs =>
      refine ⟨q, used, rest, hbs, hne, ⟨k, fun n hn => ?_⟩, hq, ?_, ?_, ?_⟩
      · have hstate : q.state ≠ .complete := by
          rw [hs]
          cases s'.mode <;> nofun
        rw [parseInputParser, bind_done (hloop n hn), bind_done (get_apply q), if_pos hstate, hout]
        rfl
      · rw [hout]
        exact ⟨hh, hs⟩
      · rw [hout]
        exact ⟨hrest, hlast⟩
      · rw [hout]
        rfl
  | @completes s' hh hs =>
      refine ⟨{ q with tokens := [], token := clearCharBuf q.token, state := .ready }, used, rest,
        hbs, hne, ⟨k, fun n hn => ?_⟩, hq.congr rfl rfl rfl rfl rfl, ?_, ?_, ?_⟩
      · rw [parseInputParser, bind_done (hloop n hn), bind_done (get_apply q),
          if_neg (not_not_intro hs), bind_done (modify_apply _ _), mkParsedCommand, hh.tokens,
          copyTokens_eq _ hh.nonzero, hout]
        simp [resultOf]
      · rw [hout]
        exact ⟨⟨rfl, CharBuf.text_clear, nofun⟩, rfl⟩
      · rw [hout]
        exact ⟨hrest, hlast⟩
      · rw [hout]
        rfl

/-- A call of the parser. -/
theorem parseInputParser_returns (h : Reads p s) (hp : Pending p bs) (hb : 0 ∉ bs) :
  ∃ q used rest, bs = used ++ rest ∧ (bs ≠ [] → used ≠ []) ∧
    (∃ N, ∀ n, N ≤ n → parseInputParser n p = .done (resultOf (scanner.run s used).2) q) ∧
    Pending q rest ∧ Reads q (scanner.run s used).1 ∧
    (rest = [] ∨ (scanner.run s used).2 ≠ []) ∧
    (resultOf (scanner.run s used).2).commands = (scanner.run s used).2
  := by
  obtain ⟨q, used, rest, hbs, hne, hrun, hq, hr, ⟨hrest, -⟩, hcmd⟩ :=
    parseInputParser_emits h hp hb
  exact ⟨q, used, rest, hbs, hne, hrun, hq, hr, hrest, hcmd⟩

/-! ### Calls while there is unparsed input -/

/-- The commands in a list of parse results, in order. -/
def commands (rs : List ParseResult) : List (List (List Byte)) :=
  rs.flatMap ParseResult.commands

/-- The calls read all the pending bytes. -/
theorem drain_returns (h : Reads p s) (hp : Fed p bs) (hb : 0 ∉ bs) :
  ∃ q rs, (∃ N, ∀ n, N ≤ n → drain n p = .done rs q) ∧ Fed q [] ∧
    Reads q (scanner.run s bs).1 ∧ commands rs = (scanner.run s bs).2
  := by
  -- each call reads one byte at least
  induction hlen : bs.length using Nat.strongRecOn generalizing p s bs with
  | ind m ih =>
      cases bs with
      | nil =>
          refine ⟨p, [], ⟨1, fun n hn => ?_⟩, hp, h, rfl⟩
          obtain ⟨n, rfl⟩ := Nat.exists_eq_succ_of_ne_zero (Nat.ne_of_gt hn)
          rw [drain, bind_done (hp.hasUnparsed hb)]
          rfl
      | cons c bs =>
          have hpend : Pending p (c :: bs) := by
            cases hp with
            | pending hp => exact hp
          obtain ⟨q₁, used, rest, hbs, hne, ⟨N₁, h₁⟩, hq₁, hr₁, -, hcmd⟩ :=
            parseInputParser_returns h hpend hb
          have hshort : rest.length < m := by
            have hused := List.length_pos_iff.mpr (hne nofun)
            rw [← hlen, hbs, List.length_append]
            omega
          have hb' : 0 ∉ rest := by
            intro h₀
            rw [hbs] at hb
            exact hb (List.mem_append_right _ h₀)
          obtain ⟨q, rs, ⟨N₂, h₂⟩, hq, hr, hcmds⟩ := ih _ hshort hr₁ (.pending hq₁) hb' rfl
          refine ⟨q, resultOf (scanner.run s used).2 :: rs, ⟨max N₁ N₂ + 1, fun n hn => ?_⟩, hq, ?_, ?_⟩
          · obtain ⟨n, rfl⟩ := Nat.exists_eq_succ_of_ne_zero (Nat.ne_of_gt (Nat.lt_of_lt_of_le
              (Nat.succ_pos _) hn))
            have hn' := Nat.le_of_succ_le_succ hn
            rw [drain, bind_done (hp.hasUnparsed hb)]
            simp only [List.isEmpty_cons, Bool.not_false, if_true]
            rw [bind_done (h₁ n (Nat.le_trans (Nat.le_max_left _ _) hn')),
              bind_done (h₂ n (Nat.le_trans (Nat.le_max_right _ _) hn'))]
            rfl
          · rw [hbs, Transducer.run_append]
            exact hr
          · rw [hbs, Transducer.run_append, commands, List.flatMap_cons, hcmd]
            exact congrArg _ hcmds

/-- Chunks that are not empty are added after the pending bytes. -/
theorem addChunks_returns {cs : List (List Byte)} (h : Reads p s) (hp : Fed p bs)
    (hcs : ∀ c ∈ cs, c ≠ [] ∧ 0 ∉ c) :
  Returns p (addChunks cs) fun _ q => Fed q (bs ++ cs.flatten) ∧ Reads q s
  := by
  induction cs generalizing p bs with
  | nil =>
      rw [List.flatten_nil, List.append_nil]
      exact .pure ⟨hp, h⟩
  | cons c cs ih =>
      obtain ⟨hne, h₀⟩ := hcs c List.mem_cons_self
      refine (hp.add hne h₀).bind ?_
      rintro - q ⟨hq, hsame⟩
      rw [List.flatten_cons, ← List.append_assoc]
      refine ih ⟨h.toHolds.same hsame.1 hsame.2.1, hsame.2.2.trans h.state⟩ (.pending hq) ?_
      exact fun c' hc' => hcs c' (List.mem_cons_of_mem _ hc')

/-! ### Feeding -/

/-- The text that is cut into the chunks of the rounds. -/
def textOf (rounds : List (List (List Byte))) : List Byte :=
  rounds.flatten.flatten

/-- The parser that is fed reads the text of the rounds as the scanner does. -/
theorem feed_returns {rounds : List (List (List Byte))} (h : Reads p s) (hp : Fed p [])
    (hr : ∀ r ∈ rounds, ∀ c ∈ r, c ≠ [] ∧ 0 ∉ c) :
  ∃ q rs, (∃ N, ∀ n, N ≤ n → feed n rounds p = .done rs q) ∧ Fed q [] ∧
    Reads q (scanner.run s (textOf rounds)).1 ∧
    commands rs = (scanner.run s (textOf rounds)).2
  := by
  induction rounds generalizing p s with
  | nil => exact ⟨p, [], ⟨0, fun n _ => rfl⟩, hp, h, rfl⟩
  | cons r rounds ih =>
      have hcs := hr r List.mem_cons_self
      obtain ⟨⟨⟩, q₁, hadd, hq₁, hr₁⟩ := addChunks_returns h hp hcs
      rw [List.nil_append] at hq₁
      have h₀ : 0 ∉ r.flatten := by
        intro h₀
        obtain ⟨c, hc, h₀⟩ := List.mem_flatten.mp h₀
        exact (hcs c hc).2 h₀
      obtain ⟨q₂, rs₂, ⟨N₂, h₂⟩, hq₂, hr₂, hcmd₂⟩ := drain_returns hr₁ hq₁ h₀
      obtain ⟨q, rs, ⟨N, hN⟩, hq, hrq, hcmd⟩ :=
        ih hr₂ hq₂ fun r' hr' => hr r' (List.mem_cons_of_mem _ hr')
      have htext : textOf (r :: rounds) = r.flatten ++ textOf rounds := by
        rw [textOf, List.flatten_cons, List.flatten_append, textOf]
      refine ⟨q, rs₂ ++ rs, ⟨max N₂ N, fun n hn => ?_⟩, hq, ?_, ?_⟩
      · rw [feed, bind_done hadd, bind_done (h₂ n (Nat.le_trans (Nat.le_max_left _ _) hn)),
          bind_done (hN n (Nat.le_trans (Nat.le_max_right _ _) hn))]
        rfl
      · rw [htext, Transducer.run_append]
        exact hrq
      · rw [htext, Transducer.run_append, commands, List.flatMap_append]
        exact congrArg₂ _ hcmd₂ hcmd

theorem reads_mkParser :
  Reads mkParser .start
  := ⟨⟨rfl, CharBuf.text_mkCharBuf 32, nofun⟩, rfl⟩

/-- The rounds in which a text is fed at once, as one chunk if there is anything to feed. -/
def atOnce (text : List Byte) : List (List (List Byte)) :=
  if text = [] then [] else [[text]]

theorem textOf_atOnce (text : List Byte) :
  textOf (atOnce text) = text
  := by
  unfold atOnce
  split
  · rename_i h
    rw [h]
    rfl
  · simp [textOf]

theorem atOnce_ne_nil {text : List Byte} :
  ∀ r ∈ atOnce text, ∀ c ∈ r, c ≠ []
  := by
  intro r hr c hc
  unfold atOnce at hr
  split at hr
  · cases hr
  · rename_i h
    rw [List.mem_singleton.mp hr] at hc
    rw [List.mem_singleton.mp hc]
    exact h

/-- What a new parser gives for a text that is cut in some way. -/
theorem feed_mkParser {rounds : List (List (List Byte))} (h₀ : 0 ∉ textOf rounds)
    (hne : ∀ r ∈ rounds, ∀ c ∈ r, c ≠ []) :
  ∃ q rs, (∃ N, ∀ n, N ≤ n → feed n rounds mkParser = .done rs q) ∧ Fed q [] ∧
    Reads q (scanner.run .start (textOf rounds)).1 ∧
    commands rs = (scanner.run .start (textOf rounds)).2
  := by
  refine feed_returns reads_mkParser fed_mkParser fun r hr c hc => ⟨hne r hr c hc, ?_⟩
  intro hzero
  exact h₀ (List.mem_flatten.mpr ⟨c, List.mem_flatten.mpr ⟨r, hr, hc⟩, hzero⟩)

/-- However a text is cut into chunks that are not empty, and however many of them are added
before the parser is called, the calls end and give the commands that they give for the text
at once.  They leave the same state, partial token and pending tokens. -/
theorem cut_independent {text : List Byte} {rounds : List (List (List Byte))} (h₀ : 0 ∉ text)
    (hcut : textOf rounds = text) (hne : ∀ r ∈ rounds, ∀ c ∈ r, c ≠ []) :
  ∃ N p q rs rs', (∀ n, N ≤ n → feed n rounds mkParser = .done rs p ∧
      feed n (atOnce text) mkParser = .done rs' q) ∧
    commands rs = commands rs' ∧ p.state = q.state ∧ p.token.text = q.token.text ∧
    p.tokens = q.tokens
  := by
  obtain ⟨p, rs, ⟨N₁, h₁⟩, -, hp, hrs⟩ := feed_mkParser (hcut ▸ h₀) hne
  obtain ⟨q, rs', ⟨N₂, h₂⟩, -, hq, hrs'⟩ :=
    feed_mkParser ((textOf_atOnce text).symm ▸ h₀) atOnce_ne_nil
  rw [hcut] at hp hrs
  rw [textOf_atOnce] at hq hrs'
  refine ⟨max N₁ N₂, p, q, rs, rs', fun n hn => ⟨?_, ?_⟩, hrs.trans hrs'.symm,
    hp.state.trans hq.state.symm, hp.token.trans hq.token.symm, hp.tokens.trans hq.tokens.symm⟩
  · exact h₁ n (Nat.le_trans (Nat.le_max_left _ _) hn)
  · exact h₂ n (Nat.le_trans (Nat.le_max_right _ _) hn)

/-- The text `"a b"` and a newline, with a cut in the quotation and one before the newline. -/
theorem cut_independent_quotation :
  ∃ N p q rs rs', (∀ n, N ≤ n →
      feed n [[[0x22, 0x61], [0x20, 0x62, 0x22]], [[0x0a]]] mkParser = .done rs p ∧
      feed n (atOnce [0x22, 0x61, 0x20, 0x62, 0x22, 0x0a]) mkParser = .done rs' q) ∧
    commands rs = commands rs' ∧ p.state = q.state ∧ p.token.text = q.token.text ∧
    p.tokens = q.tokens
  := cut_independent (by decide) rfl (by decide)

/-! ### Empty chunks -/

/-- After an empty chunk there is unparsed input that no call ever reads. -/
theorem empty_chunk_endless (n : Nat) :
  Stops mkParser (addInputParser [] >>= fun _ => drain n) .endless fun _ => True
  := by
  refine .step rfl ?_
  induction n with
  | zero => exact ⟨_, rfl, trivial⟩
  | succ n ih =>
      cases n with
      | zero => exact ⟨_, rfl, trivial⟩
      | succ n =>
          refine .step rfl ?_
          refine .step rfl ?_
          exact ih.first

end Torgo
